import Mathlib.Data.Set.List

/-!
Contract: traversals of a list that stop at the first failure.

Owns:
- what it takes for a step-by-step traversal to succeed, and what it returns then, when every step
  succeeds under a condition on its element alone;
- `FirstFailure`, what such a traversal reports otherwise.
-/

set_option autoImplicit false

namespace SparsePolynomial.Traversal

variable {Failure Element Result State : Type}

theorem bind_eq_ok {first : Except Failure Element} {next : Element → Except Failure Result}
    {result : Result} :
    (first >>= next) = .ok result ↔ ∃ element, first = .ok element ∧ next element = .ok result := by
  cases first with
  | error failure =>
      constructor
      · intro impossible
        cases impossible
      · intro given
        rcases given with ⟨_, impossible, _⟩
        cases impossible
  | ok element =>
      constructor
      · intro computed
        exact ⟨element, rfl, computed⟩
      · intro given
        rcases given with ⟨_, same, computed⟩
        cases same
        exact computed

theorem map_eq_ok {first : Except Failure Element} {next : Element → Result} {result : Result} :
    first.map next = .ok result ↔ ∃ element, first = .ok element ∧ next element = result := by
  cases first with
  | error failure => simp [Except.map]
  | ok element => simp [Except.map]

theorem bind_eq_error {first : Except Failure Element} {next : Element → Except Failure Result}
    {failure : Failure} :
    (first >>= next) = .error failure ↔
      first = .error failure ∨ ∃ element, first = .ok element ∧ next element = .error failure := by
  cases first with
  | error own => simp [bind, Except.bind]
  | ok element => simp [bind, Except.bind]

theorem map_eq_error {first : Except Failure Element} {next : Element → Result}
    {failure : Failure} : first.map next = .error failure ↔ first = .error failure := by
  cases first with
  | error own => simp [Except.map]
  | ok element => simp [Except.map]

theorem map_eq_bind (next : Element → Result) (first : Except Failure Element) :
    first.map next = (do let element ← first; return next element) := by
  cases first with
  | error failure => rfl
  | ok element => rfl

theorem bind_pure_eq_error {first : Except Failure Element} {next : Element → Result}
    {failure : Failure} :
    (do let element ← first; return next element) = .error failure ↔ first = .error failure := by
  rw [← map_eq_bind, map_eq_error]

/-- What is computed from a result exists under the same condition as the result. -/
theorem bind_pure_eq_ok {first : Except Failure Element} {fits : Prop} {value : Element}
    (computed : ∀ element, first = .ok element ↔ fits ∧ element = value)
    (next : Element → Result) (result : Result) :
    (do let element ← first; return next element) = .ok result ↔
      fits ∧ result = next value := by
  rw [bind_eq_ok]
  constructor
  · intro given
    rcases given with ⟨element, found, same⟩
    rcases (computed element).mp found with ⟨fit, rfl⟩
    cases same
    exact ⟨fit, rfl⟩
  · intro given
    rcases given with ⟨fit, rfl⟩
    exact ⟨value, (computed value).mpr ⟨fit, rfl⟩, rfl⟩

theorem mapM_eq_ok {step : Element → Except Failure Result} {fits : Element → Prop}
    {value : Element → Result} {elements : List Element}
    (each : ∀ element ∈ elements, ∀ result,
      step element = .ok result ↔ fits element ∧ result = value element)
    (results : List Result) :
    elements.mapM step = .ok results ↔
      (∀ element ∈ elements, fits element) ∧ results = elements.map value := by
  induction elements generalizing results with
  | nil =>
      rw [List.mapM_nil, List.map_nil]
      constructor
      · intro computed
        cases computed
        exact ⟨fun _ member => absurd member List.not_mem_nil, rfl⟩
      · intro given
        rcases given with ⟨_, rfl⟩
        rfl
  | cons first rest inductionHypothesis =>
      have head := each first List.mem_cons_self
      have tail := inductionHypothesis fun element member =>
        each element (List.mem_cons_of_mem _ member)
      rw [List.mapM_cons, bind_eq_ok, List.forall_mem_cons, List.map_cons]
      constructor
      · intro given
        rcases given with ⟨result, firstComputed, computed⟩
        rcases bind_eq_ok.mp computed with ⟨others, restComputed, same⟩
        rcases (head result).mp firstComputed with ⟨firstFits, rfl⟩
        rcases (tail others).mp restComputed with ⟨restFits, rfl⟩
        cases same
        exact ⟨⟨firstFits, restFits⟩, rfl⟩
      · intro given
        rcases given with ⟨⟨firstFits, restFits⟩, rfl⟩
        refine ⟨value first, (head _).mpr ⟨firstFits, rfl⟩, ?_⟩
        exact bind_eq_ok.mpr ⟨_, (tail _).mpr ⟨restFits, rfl⟩, rfl⟩

theorem mapM_eq_ok_iff_map {step : Element → Except Failure Result}
    {value? : Element → Option Result}
    (each : ∀ element result, step element = .ok result ↔ value? element = some result)
    (elements : List Element) (results : List Result) :
    elements.mapM step = .ok results ↔ elements.map value? = results.map some := by
  induction elements generalizing results with
  | nil =>
      rw [List.mapM_nil, List.map_nil, eq_comm, @eq_comm _ [], List.map_eq_nil_iff]
      exact ⟨fun same => Except.ok.inj same, fun same => congrArg Except.ok same⟩
  | cons first rest inductionHypothesis =>
      rw [List.mapM_cons, bind_eq_ok, List.map_cons]
      constructor
      · intro given
        rcases given with ⟨result, firstComputed, computed⟩
        rcases bind_eq_ok.mp computed with ⟨others, restComputed, same⟩
        cases same
        rw [List.map_cons, (each first result).mp firstComputed,
          (inductionHypothesis others).mp restComputed]
      · intro same
        cases results with
        | nil => cases same
        | cons result others =>
            rcases List.cons.inj same with ⟨head, tail⟩
            refine ⟨result, (each first result).mpr head, ?_⟩
            exact bind_eq_ok.mpr ⟨others, (inductionHypothesis others).mpr tail, rfl⟩

/-- Every element has a result exactly if there is a list of all results. -/
theorem exists_map_eq_map_some (value? : Element → Option Result) (elements : List Element) :
    (∃ results : List Result, elements.map value? = results.map some) ↔
      ∀ element ∈ elements, value? element ≠ none := by
  calc (∃ results : List Result, elements.map value? = results.map some)
      ↔ elements.map value? ∈ Set.range (List.map some) := exists_congr fun _ => eq_comm
    _ ↔ ∀ element ∈ elements, value? element ≠ none := by
      simp only [Set.range_list_map, Set.mem_ofPred_eq, List.forall_mem_map, Set.mem_range,
        Option.ne_none_iff_exists]

theorem foldlM_eq_ok {step : State → Element → Except Failure State} {fits : Element → Prop}
    {next : State → Element → State} {elements : List Element}
    (each : ∀ element ∈ elements, ∀ start finish,
      step start element = .ok finish ↔ fits element ∧ finish = next start element)
    (start finish : State) :
    elements.foldlM step start = .ok finish ↔
      (∀ element ∈ elements, fits element) ∧ finish = elements.foldl next start := by
  induction elements generalizing start with
  | nil =>
      rw [List.foldlM_nil, List.foldl_nil]
      constructor
      · intro computed
        cases computed
        exact ⟨fun _ member => absurd member List.not_mem_nil, rfl⟩
      · intro given
        rcases given with ⟨_, rfl⟩
        rfl
  | cons first rest inductionHypothesis =>
      have head := each first List.mem_cons_self
      have tail := inductionHypothesis fun element member =>
        each element (List.mem_cons_of_mem _ member)
      rw [List.foldlM_cons, bind_eq_ok, List.forall_mem_cons, List.foldl_cons]
      constructor
      · intro given
        rcases given with ⟨middle, firstComputed, restComputed⟩
        rcases (head start middle).mp firstComputed with ⟨firstFits, rfl⟩
        rcases (tail _).mp restComputed with ⟨restFits, rfl⟩
        exact ⟨⟨firstFits, restFits⟩, rfl⟩
      · intro given
        rcases given with ⟨⟨firstFits, restFits⟩, rfl⟩
        exact ⟨next start first, (head start _).mpr ⟨firstFits, rfl⟩, (tail _).mpr ⟨restFits, rfl⟩⟩

/-! ## Failures -/

/-- The failure of the first element that fails at all. -/
def FirstFailure (fails : Element → Failure → Prop) (elements : List Element)
    (failure : Failure) : Prop :=
  ∃ before element after, elements = before ++ element :: after ∧
    (∀ earlier ∈ before, ∀ other, ¬ fails earlier other) ∧ fails element failure

theorem not_firstFailure_nil {fails : Element → Failure → Prop} {failure : Failure} :
    ¬ FirstFailure fails [] failure := by
  rintro ⟨before, element, after, empty, _⟩
  cases before <;> cases empty

theorem firstFailure_cons {fails : Element → Failure → Prop} {first : Element}
    {rest : List Element} {failure : Failure} :
    FirstFailure fails (first :: rest) failure ↔
      fails first failure ∨ (∀ other, ¬ fails first other) ∧ FirstFailure fails rest failure := by
  constructor
  · rintro ⟨before, element, after, same, succeed, failed⟩
    cases before with
    | nil =>
        obtain ⟨rfl, rfl⟩ := List.cons.inj same
        exact .inl failed
    | cons own before =>
        obtain ⟨rfl, rfl⟩ := List.cons.inj same
        obtain ⟨firstSucceeds, restSucceed⟩ := List.forall_mem_cons.mp succeed
        exact .inr ⟨firstSucceeds, before, element, after, rfl, restSucceed, failed⟩
  · rintro (failed | ⟨firstSucceeds, before, element, after, rfl, restSucceed, failed⟩)
    · exact ⟨[], first, rest, rfl, nofun, failed⟩
    · exact ⟨first :: before, element, after, rfl,
        List.forall_mem_cons.mpr ⟨firstSucceeds, restSucceed⟩, failed⟩

theorem exists_firstFailure_iff {fails : Element → Failure → Prop} {elements : List Element} :
    (∃ failure, FirstFailure fails elements failure) ↔
      ∃ element ∈ elements, ∃ failure, fails element failure := by
  induction elements with
  | nil => simp [not_firstFailure_nil]
  | cons first rest inductionHypothesis =>
      simp only [firstFailure_cons, exists_or, exists_and_left, inductionHypothesis,
        List.mem_cons, exists_eq_or_imp, ← not_exists]
      rw [or_and_left, and_iff_right (Classical.em _)]

theorem exists_ok_of_not_error {computation : Except Failure Result}
    (succeeds : ∀ failure, computation ≠ .error failure) : ∃ result, computation = .ok result := by
  cases computation with
  | error failure => exact absurd rfl (succeeds failure)
  | ok result => exact ⟨result, rfl⟩

theorem mapM_eq_error {step : Element → Except Failure Result}
    {fails : Element → Failure → Prop}
    (each : ∀ element failure, step element = .error failure ↔ fails element failure)
    (elements : List Element) (failure : Failure) :
    elements.mapM step = .error failure ↔ FirstFailure fails elements failure := by
  induction elements with
  | nil => exact iff_of_false nofun not_firstFailure_nil
  | cons first rest inductionHypothesis =>
      rw [List.mapM_cons, bind_eq_error, each, firstFailure_cons]
      apply or_congr_right
      simp only [bind_eq_error, ← inductionHypothesis, ← each]
      constructor
      · rintro ⟨result, succeeds, failed | ⟨results, _, impossible⟩⟩
        · exact ⟨fun other failedFirst => by simp [succeeds] at failedFirst, failed⟩
        · cases impossible
      · rintro ⟨succeeds, failed⟩
        obtain ⟨result, computed⟩ := exists_ok_of_not_error succeeds
        exact ⟨result, computed, .inl failed⟩

theorem foldlM_eq_error {step : State → Element → Except Failure State}
    {fails : Element → Failure → Prop} {elements : List Element}
    (each : ∀ element ∈ elements, ∀ start failure,
      step start element = .error failure ↔ fails element failure)
    (start : State) (failure : Failure) :
    elements.foldlM step start = .error failure ↔ FirstFailure fails elements failure := by
  induction elements generalizing start with
  | nil => exact iff_of_false nofun not_firstFailure_nil
  | cons first rest inductionHypothesis =>
      obtain ⟨head, tail⟩ := List.forall_mem_cons.mp each
      rw [List.foldlM_cons, bind_eq_error, head, firstFailure_cons]
      apply or_congr_right
      simp only [inductionHypothesis tail, ← head start]
      constructor
      · rintro ⟨middle, succeeds, failed⟩
        exact ⟨fun other failedFirst => by simp [succeeds] at failedFirst, failed⟩
      · rintro ⟨succeeds, failed⟩
        obtain ⟨middle, computed⟩ := exists_ok_of_not_error succeeds
        exact ⟨middle, computed, failed⟩

end SparsePolynomial.Traversal
