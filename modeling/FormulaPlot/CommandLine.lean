/-
The arguments of the program.

An option stands in an argument of its own, `--name=value` or `--name value`.  Some have
a short name of one letter, and short names without a value can be written together.  A
value in an argument of its own must not look like an option.
-/
import FormulaPlot.Decimal.Reading

namespace FormulaPlot.CommandLine

/-- The options of a session. -/
structure Options where
  formulas : List String
  functions : Option String
  scale : Option Float
  width : Option Float
  height : Option Float
  verbosity : Nat
deriving DecidableEq

/-- No option is given. -/
def Options.none : Options := ⟨[], .none, .none, .none, .none, 0⟩

/-- Options with a value. -/
inductive Setting where
  | formula | functions | scale | width | height
deriving DecidableEq, Repr

/-- Options without a value. -/
inductive Switch where
  | verbose | help | version
deriving DecidableEq, Repr

/-- What the program is asked to do. -/
inductive Request where
  | session (options : Options)
  | help
  | version
deriving DecidableEq

/-- The option with a value of a long name. -/
def Setting.ofName? : String → Option Setting
  | "formula" => some .formula
  | "functions" => some .functions
  | "scale" => some .scale
  | "width" => some .width
  | "height" => some .height
  | _ => .none

/-- The option with a value of a short name. -/
def Setting.ofLetter? : Char → Option Setting
  | 'f' => some .formula
  | _ => .none

/-- The option without a value of a long name. -/
def Switch.ofName? : String → Option Switch
  | "verbose" => some .verbose
  | "help" => some .help
  | "version" => some .version
  | _ => .none

/-- The option without a value of a short name. -/
def Switch.ofLetter? : Char → Option Switch
  | 'v' => some .verbose
  | 'h' => some .help
  | 'V' => some .version
  | _ => .none

/-- Sets a value that can be given only once. -/
def once {α : Type} (old : Option α) (new : Option α) : Option (Option α) :=
  match old with
  | some _ => .none
  | .none => new.map some

/-- Gives an option its value.  Only formulas can be given more than once. -/
def Options.put (o : Options) (value : String) : Setting → Option Options
  | .formula => some { o with formulas := o.formulas ++ [value] }
  | .functions =>
    (once o.functions (if value.isEmpty then .none else some value)).map
      ({ o with functions := · })
  | .scale => (once o.scale (Decimal.readReal value).toOption).map ({ o with scale := · })
  | .width => (once o.width (Decimal.readReal value).toOption).map ({ o with width := · })
  | .height => (once o.height (Decimal.readReal value).toOption).map ({ o with height := · })

/-- An argument that a separate value must not look like. -/
def looksLikeOption (argument : String) : Bool :=
  argument.startsWith "-" && argument ≠ "-"

/-- What an argument does to the options read so far. -/
inductive Effect where
  | go (options : Options)
  /-- The next argument has to be the value of an option. -/
  | wait (options : Options) (setting : Setting)
  /-- The rest of the arguments does not matter. -/
  | answer (request : Request)
  | refuse

/-- Goes on with options, if there are any. -/
def Effect.ofOptions : Option Options → Effect
  | some o => .go o
  | .none => .refuse

/-- Reads an argument of short names, without its minus sign. -/
def readLetters (o : Options) : List Char → Effect
  | [] => .go o
  | c :: cs =>
    match Setting.ofLetter? c, Switch.ofLetter? c with
    | some s, _ =>
      match cs with
      | [] => .wait o s
      | '=' :: value => .ofOptions (o.put (String.ofList value) s)
      | value => .ofOptions (o.put (String.ofList value) s)
    | .none, some .verbose => readLetters { o with verbosity := o.verbosity + 1 } cs
    | .none, some .help => .answer .help
    | .none, some .version => .answer .version
    | .none, .none => .refuse

/-- Reads an argument of a long name, without its two minus signs. -/
def readName (o : Options) (argument : List Char) : Effect :=
  let name := String.ofList (argument.takeWhile (· ≠ '='))
  let value := (argument.dropWhile (· ≠ '=')).drop 1
  let hasValue := argument.contains '='
  match Setting.ofName? name, Switch.ofName? name with
  | some s, _ => if hasValue then .ofOptions (o.put (String.ofList value) s) else .wait o s
  | .none, some switch =>
    if hasValue then .refuse
    else match switch with
      | .verbose => .go { o with verbosity := o.verbosity + 1 }
      | .help => .answer .help
      | .version => .answer .version
  | .none, .none => .refuse

/-- Reads an argument.  There are no arguments besides options. -/
def readArgument (o : Options) (argument : String) : Effect :=
  match argument.toList with
  | '-' :: '-' :: name => readName o name
  | '-' :: letters => if letters.isEmpty then .refuse else readLetters o letters
  | _ => .refuse

/-- Reads the arguments from left to right; nothing if they make no sense.  Two minus signs
end the options, and nothing may follow them. -/
def readFrom (o : Options) : List String → Option Request
  | [] => some (.session o)
  | argument :: rest =>
    if argument = "--" then (if rest.isEmpty then some (.session o) else .none)
    else match readArgument o argument with
      | .go o => readFrom o rest
      | .wait o s =>
        match rest with
        | [] => .none
        | value :: rest =>
          if looksLikeOption value then .none
          else match o.put value s with
            | some o => readFrom o rest
            | .none => .none
      | .answer request => some request
      | .refuse => .none

/-- What the arguments ask for; nothing if they make no sense. -/
def read (arguments : List String) : Option Request := readFrom .none arguments

end FormulaPlot.CommandLine
