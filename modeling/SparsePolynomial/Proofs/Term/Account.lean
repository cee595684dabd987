import Mathlib.Data.List.FinRange
import Mathlib.Data.List.Pairwise
import SparsePolynomial.Proofs.Term.Merge
import SparsePolynomial.Proofs.Term.Normal

/-!
Contract: what becomes of every single term in the merge of any two lists.

Owns:
- `Step`, what is taken from the two lists at a time, and `Accounts`, steps that take every place of
  both lists once and in order, together with the terms that they give;
- what any such account says about the order of the pairs, about the length of the output and, where
  everything ascends, about which terms meet;
- `exists_account`: a merge always has one, and `sorted_merge`: it keeps lists sorted;
- `merge_accounted`, which puts these together.

Nothing is asked of the two lists. Where they do not ascend, terms of one exponent may pass each
other without meeting, and then both stay.
-/

set_option autoImplicit false

namespace SparsePolynomial.Term

/-! ## Steps -/

/-- What is taken at a time: an element of one of two sides, or one of each. -/
inductive Step (α β : Type) where
  | left (a : α)
  | right (b : β)
  | pair (a : α) (b : β)

namespace Step

variable {α β γ δ : Type}

/-- What is taken from the left side. -/
def left? : Step α β → Option α
  | left a | pair a _ => some a
  | right _ => none

/-- What is taken from the right side. -/
def right? : Step α β → Option β
  | right b | pair _ b => some b
  | left _ => none

/-- What is taken from both sides together. -/
def pair? : Step α β → Option (α × β)
  | pair a b => some (a, b)
  | left _ | right _ => none

def map (f : α → γ) (g : β → δ) : Step α β → Step γ δ
  | left a => left (f a)
  | right b => right (g b)
  | pair a b => pair (f a) (g b)

theorem left?_map (f : α → γ) (g : β → δ) (step : Step α β) :
    (step.map f g).left? = step.left?.map f := by
  cases step <;> rfl

theorem right?_map (f : α → γ) (g : β → δ) (step : Step α β) :
    (step.map f g).right? = step.right?.map g := by
  cases step <;> rfl

theorem pair?_map (f : α → γ) (g : β → δ) (step : Step α β) :
    (step.map f g).pair? = step.pair?.map (Prod.map f g) := by
  cases step <;> rfl

/-- What a step and the images of others take is put together from what they take on their own. -/
theorem filterMap_cons_map {σ τ : Type} {takes : Step α β → Option σ} {takes' : Step γ δ → Option τ}
    {f : α → γ} {g : β → δ} {h : σ → τ}
    (same : ∀ step : Step α β, takes' (step.map f g) = (takes step).map h) (first : Step γ δ)
    (steps : List (Step α β)) :
    (first :: steps.map (map f g)).filterMap takes' =
      (takes' first).toList ++ (steps.filterMap takes).map h := by
  rw [List.filterMap_eq_flatMap_toList, List.flatMap_cons, ← List.filterMap_eq_flatMap_toList,
    List.filterMap_map, List.map_filterMap]
  simp only [Function.comp_def, same]

end Step

/-- A step that takes places of two lists. -/
abbrev Taking (left right : List Term) : Type := Step (Fin left.length) (Fin right.length)

/-- The places that are taken together. -/
def matched {left right : List Term} (steps : List (Taking left right)) :
    List (Fin left.length × Fin right.length) :=
  steps.filterMap Step.pair?

section Accounts

variable (left right : List Term)

/-- The coefficients at two places cancel. -/
def Cancel (pair : Fin left.length × Fin right.length) : Prop :=
  Coefficient.Negligible (left[pair.1].coefficient + right[pair.2].coefficient)

instance (pair : Fin left.length × Fin right.length) : Decidable (Cancel left right pair) := by
  unfold Cancel; infer_instance

/-- The terms that a step gives: a term taken alone as it is, even if it is negligible, and of two
terms their sum, unless that is negligible. -/
def given : Taking left right → List Term
  | .left i => [left[i]]
  | .right j => [right[j]]
  | .pair i j =>
    if Cancel left right (i, j) then []
    else [⟨left[i].coefficient + right[j].coefficient, left[i].exponent⟩]

/-- The places that are taken together and give nothing. -/
def dropped (steps : List (Taking left right)) : List (Fin left.length × Fin right.length) :=
  (matched steps).filter fun pair => Cancel left right pair

/-- The steps take every place of either list once and in its order, two places together only where
the exponents are the same, and what they give is the output. -/
structure Accounts (output : List Term) (steps : List (Taking left right)) : Prop where
  lefts : steps.filterMap Step.left? = List.finRange left.length
  rights : steps.filterMap Step.right? = List.finRange right.length
  exponents : ∀ pair ∈ matched steps, left[pair.1].exponent = right[pair.2].exponent
  output_eq : output = steps.flatMap (given left right)

end Accounts

/-! ## What an account says -/

section Consequences

variable {left right : List Term}

/-- A place that is taken earlier is the earlier one on its side, so pairs never cross. -/
theorem Accounts.increasing {output : List Term} {steps : List (Taking left right)}
    (accounts : Accounts left right output steps) :
    (matched steps).Pairwise fun first second => first.1 < second.1 ∧ first.2 < second.2 := by
  have lefts : (steps.filterMap Step.left?).Pairwise (· < ·) := by
    rw [accounts.lefts]
    exact List.pairwise_lt_finRange _
  have rights : (steps.filterMap Step.right?).Pairwise (· < ·) := by
    rw [accounts.rights]
    exact List.pairwise_lt_finRange _
  rw [List.pairwise_filterMap] at lefts rights
  apply List.pairwise_filterMap.mpr
  refine (lefts.and rights).imp fun {first second} ordered pair isFirst other isSecond => ?_
  cases first <;> cases isFirst
  cases second <;> cases isSecond
  exact ⟨ordered.1 _ rfl _ rfl, ordered.2 _ rfl _ rfl⟩

/-- A step that takes two places gives one term less than it takes, and another one less if the
coefficients cancel. -/
theorem length_given (steps : List (Taking left right)) :
    (steps.flatMap (given left right)).length + (matched steps).length +
        (dropped left right steps).length =
      (steps.filterMap Step.left?).length + (steps.filterMap Step.right?).length := by
  induction steps with
  | nil => rfl
  | cons step steps inductionHypothesis =>
      unfold dropped matched at inductionHypothesis ⊢
      rw [List.flatMap_cons, List.length_append]
      cases step with
      | left _ | right _ =>
          simp only [List.filterMap_cons, Step.left?, Step.right?, Step.pair?, given,
            List.length_cons, List.length_nil]
          omega
      | pair i j =>
          simp only [List.filterMap_cons, Step.left?, Step.right?, Step.pair?, given,
            List.length_cons, List.filter_cons]
          by_cases cancel : Cancel left right (i, j)
          · simp only [cancel, decide_true, if_true, List.length_cons, List.length_nil]
            omega
          · simp only [cancel, decide_false, if_false, Bool.false_eq_true, List.length_cons,
              List.length_nil]
            omega

theorem Accounts.length {output : List Term} {steps : List (Taking left right)}
    (accounts : Accounts left right output steps) :
    output.length + (matched steps).length + (dropped left right steps).length =
      left.length + right.length := by
  rw [accounts.output_eq, length_given, accounts.lefts, accounts.rights, List.length_finRange,
    List.length_finRange]

theorem Ascending.place_unique {terms : List Term} (ascending : Ascending terms)
    {i j : Fin terms.length} (same : terms[i].exponent = terms[j].exponent) : i = j := by
  have ordered := List.pairwise_iff_get.mp ascending
  rcases lt_trichotomy i j with less | equal | greater
  · exact absurd same (UInt64.ne_of_lt (ordered i j less))
  · exact equal
  · exact absurd same.symm (UInt64.ne_of_lt (ordered j i greater))

/-- What the two steps give has no exponent in common. -/
def GiveApart (left right : List Term) (first second : Taking left right) : Prop :=
  ∀ a ∈ given left right first, ∀ b ∈ given left right second, a.exponent ≠ b.exponent

instance (left right : List Term) : Std.Symm (GiveApart left right) :=
  ⟨fun _ _ apart a inFirst b inSecond => (apart b inSecond a inFirst).symm⟩

/-- Two places that are both taken alone give their exponents, so these differ if the output
ascends. -/
theorem Accounts.exponent_ne {output : List Term} {steps : List (Taking left right)}
    (accounts : Accounts left right output steps) (ascending : Ascending output)
    {i : Fin left.length} {j : Fin right.length} (takenLeft : .left i ∈ steps)
    (takenRight : .right j ∈ steps) : left[i].exponent ≠ right[j].exponent := by
  rw [accounts.output_eq, Ascending, List.pairwise_flatMap] at ascending
  have apart : steps.Pairwise (GiveApart left right) := ascending.2.imp fun ordered a inFirst b
    inSecond => UInt64.ne_of_lt (ordered a inFirst b inSecond)
  exact apart.forall takenLeft takenRight (by simp) left[i] (List.mem_singleton_self _) right[j]
    (List.mem_singleton_self _)

/-- In an account of ascending lists with an ascending output, terms of one exponent always meet. -/
theorem Accounts.matched_of_ascending {output : List Term} {steps : List (Taking left right)}
    (accounts : Accounts left right output steps) (leftAscending : Ascending left)
    (rightAscending : Ascending right) (ascending : Ascending output) {i : Fin left.length}
    {j : Fin right.length} (same : left[i].exponent = right[j].exponent) :
    (i, j) ∈ matched steps := by
  have inLefts : i ∈ steps.filterMap Step.left? := accounts.lefts ▸ List.mem_finRange i
  have inRights : j ∈ steps.filterMap Step.right? := accounts.rights ▸ List.mem_finRange j
  obtain ⟨first, takenFirst, takesLeft⟩ := List.mem_filterMap.mp inLefts
  obtain ⟨second, takenSecond, takesRight⟩ := List.mem_filterMap.mp inRights
  cases first with
  | right _ => cases takesLeft
  | pair _ other =>
      cases takesLeft
      have met : (i, other) ∈ matched steps := List.mem_filterMap.mpr ⟨_, takenFirst, rfl⟩
      obtain rfl := rightAscending.place_unique ((accounts.exponents _ met).symm.trans same)
      exact met
  | left _ =>
      cases takesLeft
      cases second with
      | left _ => cases takesRight
      | pair other _ =>
          cases takesRight
          have met : (other, j) ∈ matched steps := List.mem_filterMap.mpr ⟨_, takenSecond, rfl⟩
          obtain rfl := leftAscending.place_unique ((accounts.exponents _ met).trans same.symm)
          exact met
      | right _ =>
          cases takesRight
          exact absurd same (accounts.exponent_ne ascending takenFirst takenSecond)

end Consequences

/-! ## The account of a merge -/

/-- Where one list is empty, the other is taken place by place. -/
theorem accounts_nil_left (right : List Term) :
    Accounts [] right right ((List.finRange right.length).map .right) where
  lefts := by simp [List.filterMap_map, Function.comp_def, Step.left?]
  rights := by simp [List.filterMap_map, Function.comp_def, Step.right?]
  exponents pair := pair.1.elim0
  output_eq := by
    rw [List.flatMap_map]
    exact (List.map_getElem_finRange right).symm.trans List.map_eq_flatMap

theorem accounts_nil_right (left : List Term) :
    Accounts left [] left ((List.finRange left.length).map .left) where
  lefts := by simp [List.filterMap_map, Function.comp_def, Step.left?]
  rights := by simp [List.filterMap_map, Function.comp_def, Step.right?]
  exponents pair := pair.2.elim0
  output_eq := by
    rw [List.flatMap_map]
    exact (List.map_getElem_finRange left).symm.trans List.map_eq_flatMap

section Longer

variable {left right longerLeft longerRight output : List Term}
  (f : Fin left.length → Fin longerLeft.length) (g : Fin right.length → Fin longerRight.length)

theorem given_map (sameLeft : ∀ i, longerLeft[f i] = left[i])
    (sameRight : ∀ j, longerRight[g j] = right[j]) (step : Taking left right) :
    given longerLeft longerRight (step.map f g) = given left right step := by
  cases step with
  | left i => exact congrArg (fun term => [term]) (sameLeft i)
  | right j => exact congrArg (fun term => [term]) (sameRight j)
  | pair i j => simp only [Step.map, given, Cancel, sameLeft, sameRight]

/-- A step is put in front of an account of what it leaves of two lists. -/
theorem Accounts.cons {steps : List (Taking left right)}
    (accounts : Accounts left right output steps)
    (sameLeft : ∀ i, longerLeft[f i] = left[i]) (sameRight : ∀ j, longerRight[g j] = right[j])
    {step : Taking longerLeft longerRight}
    (takesLeft : List.finRange longerLeft.length =
      step.left?.toList ++ (List.finRange left.length).map f)
    (takesRight : List.finRange longerRight.length =
      step.right?.toList ++ (List.finRange right.length).map g)
    (sameExponent : ∀ pair ∈ step.pair?,
      longerLeft[pair.1].exponent = longerRight[pair.2].exponent) :
    Accounts longerLeft longerRight (given longerLeft longerRight step ++ output)
      (step :: steps.map (Step.map f g)) where
  lefts := by
    rw [Step.filterMap_cons_map (Step.left?_map f g), accounts.lefts, takesLeft]
  rights := by
    rw [Step.filterMap_cons_map (Step.right?_map f g), accounts.rights, takesRight]
  exponents := by
    rw [matched, Step.filterMap_cons_map (Step.pair?_map f g), List.forall_mem_append,
      List.forall_mem_map]
    refine ⟨fun pair member => sameExponent pair (Option.mem_toList.mp member), ?_⟩
    intro pair member
    change longerLeft[f pair.1].exponent = longerRight[g pair.2].exponent
    rw [sameLeft, sameRight]
    exact accounts.exponents pair member
  output_eq := by
    rw [accounts.output_eq, List.flatMap_cons, List.flatMap_map]
    simp only [given_map f g sameLeft sameRight]

end Longer

/-- Every merge can be accounted for: each of its steps takes the heads that it looks at. -/
theorem exists_account (left right : List Term) :
    ∃ steps, Accounts left right (merge left right) steps := by
  fun_induction merge left right with
  | case1 right => exact ⟨_, accounts_nil_left right⟩
  | case2 left _ => exact ⟨_, accounts_nil_right left⟩
  | case3 a left b right order inductionHypothesis =>
      obtain ⟨steps, accounts⟩ := inductionHypothesis
      have longer : Accounts (a :: left) (b :: right) (_ ++ _) (.left 0 :: _) :=
        accounts.cons Fin.succ id (fun _ => rfl) (fun _ => rfl) List.finRange_succ
          (List.map_id _).symm (by simp [Step.pair?])
      exact ⟨_, longer⟩
  | case4 a left b right order inductionHypothesis =>
      obtain ⟨steps, accounts⟩ := inductionHypothesis
      have longer : Accounts (a :: left) (b :: right) (_ ++ _) (.right 0 :: _) :=
        accounts.cons id Fin.succ (fun _ => rfl) (fun _ => rfl) (List.map_id _).symm
          List.finRange_succ (by simp [Step.pair?])
      exact ⟨_, longer⟩
  | case5 a left b right order inductionHypothesis =>
      have same : a.exponent = b.exponent := Std.LawfulEqOrd.eq_of_compare order
      obtain ⟨steps, accounts⟩ := inductionHypothesis
      have longer : Accounts (a :: left) (b :: right) (_ ++ _) (.pair 0 0 :: _) :=
        accounts.cons Fin.succ Fin.succ (fun _ => rfl) (fun _ => rfl) List.finRange_succ
          List.finRange_succ (by simpa [Step.pair?] using same)
      exact ⟨_, longer⟩

/-! ## Sorted lists -/

private theorem atMost_cons {exponent : UInt64} {first : Term} {rest : List Term}
    (atMost : exponent ≤ first.exponent) (sorted : Sorted (first :: rest)) :
    ∀ term ∈ first :: rest, exponent ≤ term.exponent := by
  intro term member
  rcases List.mem_cons.mp member with rfl | later
  · exact atMost
  · exact UInt64.le_trans atMost ((List.pairwise_cons.mp sorted).1 term later)

/-- Lists that never descend give a list that never descends, though exponents may be repeated. -/
theorem sorted_merge {left right : List Term} (leftSorted : Sorted left)
    (rightSorted : Sorted right) : Sorted (merge left right) := by
  fun_induction merge left right with
  | case1 right => exact rightSorted
  | case2 left _ => exact leftSorted
  | case3 a left b right order inductionHypothesis =>
      have less : a.exponent < b.exponent := Std.compare_eq_lt.mp order
      obtain ⟨aAtMost, leftRest⟩ := List.pairwise_cons.mp leftSorted
      have bAtLeast := atMost_cons (UInt64.le_of_lt less) rightSorted
      exact List.pairwise_cons.mpr
        ⟨forall_exponent_merge (a.exponent ≤ ·) aAtMost bAtLeast,
          inductionHypothesis leftRest rightSorted⟩
  | case4 a left b right order inductionHypothesis =>
      have less : b.exponent < a.exponent := Std.compare_eq_gt.mp order
      obtain ⟨bAtMost, rightRest⟩ := List.pairwise_cons.mp rightSorted
      have aAtLeast := atMost_cons (UInt64.le_of_lt less) leftSorted
      exact List.pairwise_cons.mpr
        ⟨forall_exponent_merge (b.exponent ≤ ·) aAtLeast bAtMost,
          inductionHypothesis leftSorted rightRest⟩
  | case5 a left b right order inductionHypothesis =>
      have same : a.exponent = b.exponent := Std.LawfulEqOrd.eq_of_compare order
      obtain ⟨aAtMost, leftRest⟩ := List.pairwise_cons.mp leftSorted
      obtain ⟨bAtMost, rightRest⟩ := List.pairwise_cons.mp rightSorted
      have tail := inductionHypothesis leftRest rightRest
      have atMost := forall_exponent_merge (a.exponent ≤ ·) aAtMost (same ▸ bAtMost)
      unfold Term.sum
      dsimp only
      split
      · exact tail
      · exact List.pairwise_cons.mpr ⟨atMost, tail⟩

/-! ## All of it -/

/-- A merge of any two lists loses nothing and makes nothing up: its terms are those of the two
lists, each in its order, where some pairs of one exponent are replaced by their sum or by nothing.
The length is short by one for each pair and by another one for each pair that gives nothing. Where
both lists ascend, every exponent that they have in common makes a pair. -/
theorem merge_accounted (left right : List Term) :
    (∃ steps, Accounts left right (merge left right) steps ∧
      ((matched steps).Pairwise fun first second => first.1 < second.1 ∧ first.2 < second.2) ∧
      (merge left right).length + (matched steps).length + (dropped left right steps).length =
        left.length + right.length ∧
      (Ascending left → Ascending right → ∀ (i : Fin left.length) (j : Fin right.length),
        left[i].exponent = right[j].exponent → (i, j) ∈ matched steps)) ∧
    (Sorted left → Sorted right → Sorted (merge left right)) := by
  obtain ⟨steps, accounts⟩ := exists_account left right
  refine ⟨⟨steps, accounts, accounts.increasing, accounts.length, ?_⟩, sorted_merge⟩
  intro leftAscending rightAscending i j same
  exact accounts.matched_of_ascending leftAscending rightAscending
    (ascending_merge leftAscending rightAscending) same

/-- The constants cancel, the squares do not. -/
def shortSummand : List Term := [⟨1.0, 0⟩, ⟨2.0, 2⟩]

/-- The last term is zero and has no partner. -/
def longSummand : List Term := [⟨-1.0, 0⟩, ⟨3.0, 2⟩, ⟨0.0, 5⟩]

theorem merge_accounted_summands :
    Ascending shortSummand ∧ Ascending longSummand ∧ Sorted shortSummand ∧ Sorted longSummand ∧
      merge shortSummand longSummand = [⟨5.0, 2⟩, ⟨0.0, 5⟩] ∧
      Sorted (merge shortSummand longSummand) ∧
      ∃ steps : List (Taking shortSummand longSummand),
        (⟨0, by decide⟩, ⟨0, by decide⟩) ∈ matched steps ∧
          (⟨1, by decide⟩, ⟨1, by decide⟩) ∈ matched steps := by
  have leftAscending : Ascending shortSummand := by decide
  have rightAscending : Ascending longSummand := by decide
  have leftSorted : Sorted shortSummand := by unfold Sorted; decide
  have rightSorted : Sorted longSummand := by unfold Sorted; decide
  obtain ⟨⟨steps, _, _, _, meet⟩, sorted⟩ := merge_accounted shortSummand longSummand
  exact ⟨leftAscending, rightAscending, leftSorted, rightSorted, by decide +kernel,
    sorted leftSorted rightSorted, steps, meet leftAscending rightAscending _ _ rfl,
    meet leftAscending rightAscending _ _ rfl⟩

/-- In lists that descend somewhere, two terms of one exponent may pass each other. -/
example : merge [⟨2.0, 5⟩, ⟨3.0, 1⟩] [⟨4.0, 1⟩, ⟨5.0, 5⟩] = [⟨4.0, 1⟩, ⟨7.0, 5⟩, ⟨3.0, 1⟩] := by
  decide +kernel

end SparsePolynomial.Term
