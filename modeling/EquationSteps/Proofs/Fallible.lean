import Mathlib.Logic.Basic

/-!
# Computations that may fail

A computation of this library that may fail is a value of `Except`, computations are put together by
`>>=`, and a list of them is run from its front by `List.mapM'`. The first failure ends the whole
computation, so a result and a failure say quite different things about the parts, and each has
facts of its own here. None of them is about what fails or why: no tree, no text and no error of the
library appears.

## What a result says

* A result of `x >>= f` is a result of `f` at the result of `x` (`Except.ok_of_bind_eq_ok`). Proofs
  that start from a result take the computation apart by this, one step after the other, and never
  open it.
* A result of mapping a list pairs every element with its own result (`exists_parts_of_mapM'`). The
  pairs are what inductive relations over lists of parts are stated with.

## What a failure says

A failure of `x >>= f` is one of `x` or one of `f` at some result (`Except.error_of_bind_eq_error`),
and mapping a list fails as the function fails on an element (`exists_of_mapM'_eq_error`). Which
element that is, and what came before it, is left open: it is enough where all failures are of one
kind.

## Whether there is a result

Where every step after the first one succeeds, only the first one matters
(`Except.exists_bind_eq_ok_iff`), and mapping a list succeeds if the function succeeds on every
element (`exists_mapM'_eq_ok_iff`). A computation that is replaced by one with at least its results
keeps its result (`Except.bind_mono`, `mapM'_mono`), and one whose checks never fail is the
computation without them (`foldlM_eq_ok`).
-/

namespace EquationSteps

variable {α β γ ε : Type}

namespace Except

variable {x y : Except ε α} {f : α → Except ε β} {b : β} {e : ε}

/-! ### Two steps -/

/-- **A result of two steps comes from a result of the first one.** -/
theorem ok_of_bind_eq_ok (h : x >>= f = .ok b) : ∃ a, x = .ok a ∧ f a = .ok b := by
  rcases x with e | a
  · cases h
  · exact ⟨a, rfl, h⟩

/-- **A failure of two steps is one of the first step**, or one of the second step at some value. -/
theorem error_of_bind_eq_error (h : x >>= f = .error e) : x = .error e ∨ ∃ a, f a = .error e := by
  rcases x with other | a
  · cases h
    exact Or.inl rfl
  · exact Or.inr ⟨a, h⟩

/-- Where the second step always succeeds, both succeed if the first one does. -/
theorem exists_bind_eq_ok_iff (hf : ∀ a, ∃ b, f a = .ok b) :
    (∃ b, x >>= f = .ok b) ↔ ∃ a, x = .ok a := by
  constructor
  · rintro ⟨b, h⟩
    obtain ⟨a, ha, -⟩ := ok_of_bind_eq_ok h
    exact ⟨a, ha⟩
  · rintro ⟨a, rfl⟩
    exact hf a

/-- The first step may be exchanged for one that has at least its results. -/
theorem bind_mono (hle : ∀ a, x = .ok a → y = .ok a) (h : x >>= f = .ok b) : y >>= f = .ok b := by
  obtain ⟨a, ha, hb⟩ := ok_of_bind_eq_ok h
  rw [hle a ha]
  exact hb

/-- A computation of which it was evaluated that it comes to a value with a property. Evaluating the
option is how facts about one fixed input are found: it decides both at once, without naming the
value. -/
theorem exists_ok_of_toOption {p : α → Prop} [DecidablePred p]
    (h : x.toOption.map (fun a ↦ decide (p a)) = some true) : ∃ a, x = .ok a ∧ p a := by
  rcases x with e | a
  · cases h
  · exact ⟨a, rfl, of_decide_eq_true (Option.some.inj h)⟩

end Except

section Lists

variable {f g : α → Except ε β} {list : List α} {results : List β}

/-! ### Lists -/

/-- **Mapping a list pairs its elements with their results**, in their order. -/
theorem exists_parts_of_mapM' (h : list.mapM' f = .ok results) : ∃ parts : List (α × β),
    list = parts.map Prod.fst ∧ results = parts.map Prod.snd ∧
      ∀ part ∈ parts, f part.1 = .ok part.2 := by
  induction list generalizing results with
  | nil =>
    cases h
    exact ⟨[], rfl, rfl, List.forall_mem_nil _⟩
  | cons a list ih =>
    obtain ⟨b, hb, h⟩ := Except.ok_of_bind_eq_ok h
    obtain ⟨rest, hrest, h⟩ := Except.ok_of_bind_eq_ok h
    cases h
    obtain ⟨parts, rfl, rfl, hparts⟩ := ih hrest
    exact ⟨(a, b) :: parts, rfl, rfl, List.forall_mem_cons.2 ⟨hb, hparts⟩⟩

/-- **Mapping a list fails as the function fails on one of its elements.** -/
theorem exists_of_mapM'_eq_error {e : ε} (h : list.mapM' f = .error e) :
    ∃ a ∈ list, f a = .error e := by
  induction list with
  | nil => cases h
  | cons a list ih =>
    rcases Except.error_of_bind_eq_error h with ha | ⟨b, h⟩
    · exact ⟨a, List.mem_cons_self, ha⟩
    · rcases Except.error_of_bind_eq_error h with hlist | ⟨rest, h⟩
      · obtain ⟨other, hmem, hother⟩ := ih hlist
        exact ⟨other, List.mem_cons_of_mem _ hmem, hother⟩
      · cases h

/-- Mapping a list succeeds if the function succeeds on all of it. -/
theorem exists_mapM'_eq_ok_iff :
    (∃ results, list.mapM' f = .ok results) ↔ ∀ a ∈ list, ∃ b, f a = .ok b := by
  constructor
  · rintro ⟨results, h⟩ a hmem
    obtain ⟨parts, rfl, -, hparts⟩ := exists_parts_of_mapM' h
    obtain ⟨part, hpart, rfl⟩ := List.mem_map.1 hmem
    exact ⟨part.2, hparts part hpart⟩
  · intro h
    induction list with
    | nil => exact ⟨[], rfl⟩
    | cons a list ih =>
      obtain ⟨⟨b, hb⟩, hrest⟩ := List.forall_mem_cons.1 h
      obtain ⟨results, hresults⟩ := ih hrest
      exact ⟨b :: results, by rw [List.mapM', hb, hresults]; rfl⟩

/-- The function may be exchanged for one that has at least its results. -/
theorem mapM'_mono (hle : ∀ a b, f a = .ok b → g a = .ok b) (h : list.mapM' f = .ok results) :
    list.mapM' g = .ok results := by
  induction list generalizing results with
  | nil => exact h
  | cons a list ih =>
    obtain ⟨b, hb, h⟩ := Except.ok_of_bind_eq_ok h
    obtain ⟨rest, hrest, h⟩ := Except.ok_of_bind_eq_ok h
    rw [List.mapM', hle a b hb, ih hrest]
    exact h

/-- Mapping a list of one element is one step. -/
theorem mapM'_singleton_bind (f : α → Except ε β) (a : α) (next : List β → Except ε γ) :
    [a].mapM' f >>= next = f a >>= fun b ↦ next [b] := by
  rw [List.mapM'_cons]
  cases f a <;> rfl

/-- What is done to the elements before may be done by the function. -/
theorem mapM'_map (f : α → β) (g : β → Except ε γ) (list : List α) :
    (list.map f).mapM' g = list.mapM' fun a ↦ g (f a) := by
  rw [List.mapM'_eq_mapM, List.mapM'_eq_mapM, List.mapM_map]
  rfl

end Lists

/-- **Folding with checks that do not fail is folding without them.** The checks need to succeed for
the elements of the list only, but for every value that is folded so far. -/
theorem foldlM_eq_ok {step : β → α → Except ε β} {unchecked : β → α → β} {list : List α}
    (h : ∀ b, ∀ a ∈ list, step b a = .ok (unchecked b a)) (b : β) :
    list.foldlM step b = .ok (list.foldl unchecked b) := by
  induction list generalizing b with
  | nil => rfl
  | cons a list ih =>
    obtain ⟨ha, hlist⟩ : (∀ b, step b a = .ok (unchecked b a)) ∧
        ∀ b, ∀ a ∈ list, step b a = .ok (unchecked b a) :=
      ⟨fun b ↦ h b a List.mem_cons_self, fun b a hmem ↦ h b a (List.mem_cons_of_mem _ hmem)⟩
    rw [List.foldlM_cons, ha, List.foldl_cons]
    exact ih hlist _

end EquationSteps
