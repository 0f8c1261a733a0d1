/-
How high a tree can get.

Every reader has a number of levels left, and passes on fewer to the readers that it calls
for what lies deeper.  So the tree that comes back is bounded, but not by the number of
levels.  A level is paid when an operand is read, and what has been read is then put below
further operators: each fold of the loop takes the tree of everything to its left one level
deeper, and none of the levels that this tree has used is counted again.  With `d` levels
left, the operand in front of a chain may have used up all of them, and there may be `d`
folds after it.  `tall` adds this up over the levels.

The induction is that of the readers.  Each gets the bound of its own result from those of
the readers that it calls, and the arithmetic in between is linear.
-/
import Mathlib
import FormulaPlot.Parser.Formula
import FormulaPlot.Proofs.Parser.Steps

namespace FormulaPlot

namespace Expr

mutual

/-- The number of edges on the longest path from the root to a leaf.  The bodies of called
functions do not count. -/
def height : Expr → Nat
  | const _ | var _ => 0
  | unary _ e => height e + 1
  | binary _ a b => max (height a) (height b) + 1
  | apply _ args => heightBelow args
  | call _ _ _ args => heightBelow args
  | ternary c a b => max (height c) (max (height a) (height b)) + 1
  | limit e c => max (height e) (height c) + 1

/-- The height of a node with these trees below it. -/
def heightBelow : List Expr → Nat
  | [] => 0
  | e :: es => max (height e + 1) (heightBelow es)

end

theorem height_applyTo (f : Parser.Callee) (args : List Expr) :
    (f.applyTo args).height = heightBelow args := by
  cases f <;> simp only [Parser.Callee.applyTo, callOf, height]

end Expr

namespace Parser

/-- Two more than the height of the highest ternary that can be read with so many levels. -/
def tall : Nat → Nat
  | 0 => 0
  | d + 1 => tall d + d + 2

variable {names : List String} {r : Registry} {d n : Nat}

/-- Whatever the reader accepts is no higher than this. -/
def Within (r : Registry) (n : Nat) (reader : Reader Expr) : Prop :=
  ∀ ts e rest, (reader ts).against r = .ok (e, rest) → e.height ≤ n

/-- Whatever the reader accepts leaves two levels to this height.  No tree does so if the height
is zero, so this also says that a ternary is refused if there is no level left. -/
def TwoBelow (r : Registry) (n : Nat) (reader : Reader Expr) : Prop :=
  ∀ ts e rest, (reader ts).against r = .ok (e, rest) → e.height + 2 ≤ n

/-- The loop puts what it was given deeper by as many levels as there are left. -/
def Chains (names : List String) (r : Registry) (d : Nat) : Prop :=
  ∀ min left, Within r (max left.height (tall d - 1) + d) (folds names d min left)

/-! ### Names and calls -/

theorem heightBelow_operands {operand : Reader Expr} (hoperand : TwoBelow r n operand)
    (fuel : Nat) : ∀ ts args rest, (operands operand fuel ts).against r = .ok (args, rest) →
      Expr.heightBelow args + 1 ≤ n := by
  induction fuel with
  | zero =>
      intro ts args rest hread
      obtain ⟨first, us, hfirst, ⟨-, rfl, -⟩ | ⟨_, _, _, -, hno, -⟩⟩ :=
        against_operands_eq_ok.mp hread
      · have hhead := hoperand ts first us hfirst
        simp only [Expr.heightBelow]
        omega
      · omega
  | succ fuel ih =>
      intro ts args rest hread
      obtain ⟨first, us, hfirst, hmore⟩ := against_operands_eq_ok.mp hread
      have hhead := hoperand ts first us hfirst
      rcases hmore with ⟨-, rfl, -⟩ | ⟨vs, less, others, -, hless, -, hothers, rfl⟩
      · simp only [Expr.heightBelow]
        omega
      · obtain rfl : less = fuel := by omega
        have htail := ih vs others rest hothers
        simp only [Expr.heightBelow]
        omega

theorem within_resolve {operand : Reader Expr} (hoperand : TwoBelow r n operand) (name : String)
    (column : Nat) : Within r (n - 1) (resolve operand names name column) := by
  intro ts e rest hread
  rcases against_resolve_eq_ok.mp hread with ⟨i, -, rfl, -⟩ | ⟨value, -, -, rfl, -⟩ |
    ⟨-, -, hcall⟩
  · simp [Expr.height]
  · simp [Expr.height]
  · obtain ⟨f, us, args, vs, -, -, hargs, -, -, rfl⟩ := (against_call_eq_ok names).mp hcall
    have hbelow := heightBelow_operands hoperand _ us args vs hargs
    rw [Expr.height_applyTo]
    omega

/-! ### One reader after the other -/

theorem within_atom (hternary : TwoBelow r (tall d) (ternary names d)) :
    Within r (tall d - 1) (atom names d) := by
  intro ts e rest hread
  obtain ⟨t, us, rfl, -, ⟨value, -, rfl, -⟩ | ⟨name, -, hname⟩ | ⟨-, vs, hinner, -⟩⟩ :=
    against_atom_eq_ok.mp hread
  · simp [Expr.height]
  · exact within_resolve hternary name t.column us e rest hname
  · have hparens := hternary us e vs hinner
    omega

theorem within_unary (hatom : Within r (tall d - 1) (atom names d))
    (hunary : ∀ less, d = less + 1 → Within r (tall less - 1) (unary names less)) :
    Within r (tall d - 1) (unary names d) := by
  intro ts e rest hread
  rcases against_unary_eq_ok.mp hread with ⟨-, hplain⟩ |
    ⟨op, us, less, inner, -, -, rfl, hinner, rfl⟩
  · exact hatom ts e rest hplain
  · have := hunary less rfl us inner rest hinner
    simp only [Expr.height, tall]
    omega

theorem within_folds
    (hless : ∀ less, d = less + 1 →
      (∀ min, Within r (tall less - 1 + less) (binary names less min)) ∧ Chains names r less) :
    Chains names r d := by
  intro min left ts e rest hread
  rcases against_folds_eq_ok.mp hread with ⟨-, rfl, -⟩ |
    ⟨op, us, less, right, vs, -, -, -, rfl, hright, hloop⟩
  · omega
  · obtain ⟨hbinary, hfolds⟩ := hless less rfl
    have hoperand := hbinary op.rightMin us right vs hright
    have hwhole := hfolds min (.binary op left right) vs e rest hloop
    simp only [Expr.height, tall] at hwhole ⊢
    omega

theorem within_binary (hunary : Within r (tall d - 1) (unary names d)) (hfolds : Chains names r d)
    (min : Precedence) : Within r (tall d - 1 + d) (binary names d min) := by
  intro ts e rest hread
  obtain ⟨left, us, hleft, hloop⟩ := against_binary_eq_ok.mp hread
  have hoperand := hunary ts left us hleft
  have hwhole := hfolds min left us e rest hloop
  omega

theorem twoBelow_ternary (hbinary : ∀ min, Within r (tall d - 1 + d) (binary names d min))
    (hternary : TwoBelow r (tall d) (ternary names d)) :
    TwoBelow r (tall (d + 1)) (ternary names (d + 1)) := by
  intro ts e rest hread
  obtain ⟨less, c, us, hless, hc, hmore⟩ := against_ternary_eq_ok.mp hread
  obtain rfl : d = less := by omega
  have hcond := hbinary .disjunction ts c us hc
  rcases hmore with ⟨-, rfl, -⟩ | ⟨vs, y, ws, xs, no, -, -, hy, -, hno, rfl⟩
  · simp only [tall]
    omega
  · have hyes := hbinary .disjunction vs y ws hy
    have hother := hternary xs no rest hno
    simp only [Expr.height, tall]
    omega

/-- With so many levels left, no higher ternary is read. -/
theorem twoBelow_of_levels (names : List String) (r : Registry) (d : Nat) :
    TwoBelow r (tall d) (ternary names d) := by
  refine (levels_induction (T := fun d => TwoBelow r (tall d) (ternary names d))
    (A := fun d => Within r (tall d - 1) (atom names d))
    (U := fun d => Within r (tall d - 1) (unary names d)) (F := Chains names r)
    (B := fun d => ∀ min, Within r (tall d - 1 + d) (binary names d min))
    ?_ ?_ ?_ ?_ ?_ ?_ ?_ ?_ d).1
  · intro ts e rest hread
    obtain ⟨less, _, _, hless, -⟩ := against_ternary_eq_ok.mp hread
    omega
  · exact fun d => within_atom
  · exact fun hatom => within_unary hatom (by simp)
  · exact within_folds (by simp)
  · exact fun d => within_binary
  · exact fun d => twoBelow_ternary
  · exact fun d hunary hatom => within_unary hatom fun less h => by cases h; exact hunary
  · exact fun d hbinary hfolds => within_folds fun less h => by cases h; exact ⟨hbinary, hfolds⟩

/-- A formula that is accepted is no higher than the levels of nesting add up to. -/
theorem height_of_read (text : String) (functions : Registry) (names : List String) (e : Expr)
    (h : read text functions names = .ok e) : e.height ≤ 33151 := by
  unfold read at h
  cases hread : (topLevel names (Token.tokenize text)).against functions with
  | error fault =>
      rw [hread] at h
      cases h
  | ok e' =>
      rw [hread] at h
      cases h
      have hternary := twoBelow_of_levels names functions maxDepth
      have htall : tall maxDepth = 33152 := by decide +kernel
      rw [htall] at hternary
      obtain ⟨-, inner, us, hinner, hmore⟩ := against_topLevel_eq_ok.mp hread
      have hbody := hternary _ inner us hinner
      rcases hmore with ⟨-, -, rfl⟩ | ⟨vs, ws, cond, xs, -, -, -, -, hcond, -, rfl⟩
      · omega
      · have hlimit := hternary ws cond xs hcond
        simp only [Expr.height]
        omega

theorem height_of_read_sub_neg :
    ∃ e, read "a - -b" .empty ["a", "b"] = .ok e ∧ e.height ≤ 33151 := by
  have hread : read "a - -b" .empty ["a", "b"] =
      .ok (.binary .sub (.var 0) (.unary .neg (.var 1))) := by
    cbv
  exact ⟨_, hread, height_of_read _ _ _ _ hread⟩

/-- Two hundred and fifty-five signs use up all levels but one.  The two sums on top of them are
read with the levels that the signs have given back, and the tree is higher than there are
levels. -/
theorem read_signs_and_sums :
    ∃ e, read (String.ofList (List.replicate 255 '-') ++ "x+1+1") .empty ["x"] = .ok e ∧
      ¬ e.height ≤ 256 := by
  have hheight : ((read (String.ofList (List.replicate 255 '-') ++ "x+1+1") .empty ["x"]).map
      Expr.height).toOption = some 257 := by
    decide +kernel
  cases hread : read (String.ofList (List.replicate 255 '-') ++ "x+1+1") .empty ["x"] with
  | error fault =>
      rw [hread] at hheight
      cases hheight
  | ok e =>
      rw [hread] at hheight
      have hexact : e.height = 257 := Option.some.inj hheight
      exact ⟨e, rfl, by omega⟩

end Parser

end FormulaPlot
