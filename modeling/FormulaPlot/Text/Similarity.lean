/-
How much two names resemble each other.

The distance of two names is the least number of single edits that turn one into the
other: inserting, deleting or replacing a character, or exchanging two characters that
become neighbours once those between them are deleted.  `distance` fills the table of
distances between all beginnings of the two names, row by row.
-/

namespace FormulaPlot.Text

/-- The number of characters up to the last one that satisfies `p`; zero if none does. -/
def lastPlace (p : Char → Bool) (cs : List Char) : Nat :=
  cs.length - cs.reverse.findIdx p

/-- The entry of a table of rows. -/
def entry (rows : Array (Array Nat)) (i j : Nat) : Nat := (rows.getD i #[]).getD j 0

/-- The distance of the first `i + 1` characters of `a` from the first `j + 1` of `b`,
given all earlier rows and the earlier entries of its own. -/
def cell (a b : List Char) (rows : Array (Array Nat)) (row : Array Nat) (i j : Nat) : Nat :=
  let same := a[i]? == b[j]?
  let edited := min (min (entry rows i (j + 1)) (row.getD j 0) + 1)
    (entry rows i j + if same then 0 else 1)
  -- The last places where the two characters stand the other way round.
  let k := lastPlace (fun c => some c == b[j]?) (a.take i)
  let l := lastPlace (fun c => some c == a[i]?) (b.take j)
  if k = 0 ∨ l = 0 then edited
  else min edited (entry rows (k - 1) (l - 1) + (i - k) + 1 + (j - l))

/-- The row of distances for the first `i + 1` characters of `a`. -/
def distanceRow (a b : List Char) (rows : Array (Array Nat)) (i : Nat) : Array Nat :=
  (List.range b.length).foldl (fun row j => row.push (cell a b rows row i j)) #[i + 1]

/-- The number of edits between two names. -/
def distance (a b : List Char) : Nat :=
  let first := (List.range (b.length + 1)).toArray
  let rows := (List.range a.length).foldl
    (fun rows i => rows.push (distanceRow a b rows i)) #[first]
  entry rows a.length b.length

/-- The share of a name that needs no edit, from zero to one. -/
def similarity (a b : String) : Float :=
  let longer := max a.length b.length
  if longer = 0 then 1
  else 1 - Float.ofNat (distance a.toList b.toList) / Float.ofNat longer

/-- The name with its ASCII letters in lower case. -/
def lowercase (s : String) : String := s.map Char.toLower

/-- The better of two scored candidates; the earlier one if they are equal. -/
def better (best next : Float × String) : Float × String :=
  if best.1 < next.1 then next else best

/-- The first best candidate by a measure of resemblance to `name`, if it resembles the
name enough to be worth suggesting.  Upper and lower case do not count. -/
def mostSimilarBy (measure : String → String → Float) (name : String)
    (candidates : List String) : Option String :=
  match candidates.map fun c => (measure (lowercase name) (lowercase c), c) with
  | [] => none
  | first :: others =>
    let (score, best) := others.foldl better first
    if 0.3 < score then some best else none

/-- The candidate to suggest in place of `name`. -/
def mostSimilar (name : String) (candidates : List String) : Option String :=
  mostSimilarBy similarity name candidates

end FormulaPlot.Text
