import EquationSteps.Proofs.Reading.Grammar
import Mathlib.Data.List.SplitBy
import Mathlib.Logic.Relation

/-!
# Writing out products

The products of a text can be written out one at a time: wherever two factors stand side by side, a
`*` is put between them, until no two factors do. `WritesProduct` is one such step. The reader is
quicker, it goes over the text once and compares the neighbours as they stood before
(`explicitProducts`).

Both come to the same, in whatever order the steps are taken (`reflTransGen_writesProduct_iff`).
This rests on a single fact, that a step changes nothing of what the scan makes of a text
(`WritesProduct.explicitProducts_eq`), which in turn is the law by which the scan of a text is cut
between any two neighbours (`explicitProducts_append`). A `*` is no factor, so no step makes room
for another.

What is put in and what is the text itself is told apart by the *runs* that a text falls into,
within which no two neighbours are factors side by side. One after the other they are the text, and
with a `*` at every joint they are the text with its products written out
(`Text.FallsInto.explicitProducts_eq`).

**No termination argument.** The steps could be shown to end and to be confluent, and the scan would
then be the normal form. It is less work the other way round: the scan is an invariant of the steps,
and a text without a step left is its own scan. So whatever a sequence of steps ends with is the
scan of the text that it started with.

**Blanks are dropped first.** Only then does the reader write out products, so `2 x` is one as much
as `2x`, and `1 2` becomes one number. Since neither a factor nor a `*` is a blank, writing out
products beforehand makes no difference for what is read (`scanned_explicitProducts`).
-/

namespace EquationSteps

open Relation

/-- Two characters that are two factors when they stand side by side: the first can end a factor and
the second can begin one, and they are not digits of one number. -/
def Juxtaposed (left right : Char) : Prop :=
  (left.isAlpha = true ∨ left.isDigit = true ∨ left = ')') ∧
    (right.isAlpha = true ∨ right.isDigit = true ∨ right = '(') ∧
    ¬(left.isDigit = true ∧ right.isDigit = true)

instance (left right : Char) : Decidable (Juxtaposed left right) :=
  inferInstanceAs (Decidable (_ ∧ _))

/-- Every product of a text is written out. -/
def Text.IsWrittenOut (text : Text) : Prop :=
  text.IsChain fun c d ↦ multiplies c d = false

/-- A `*` is put between two factors that stand side by side somewhere in a text. -/
inductive WritesProduct : Text → Text → Prop where
  | between (before : Text) {c d : Char} (after : Text) (h : Juxtaposed c d) :
    WritesProduct (before ++ c :: d :: after) (before ++ c :: '*' :: d :: after)

/-- A text falls into runs: one after the other they are the text, and the joints between them are
the places where two factors stand side by side. -/
structure Text.FallsInto (text : Text) (runs : List Text) : Prop where
  /-- The runs lose nothing of the text. -/
  flatten_eq : runs.flatten = text
  /-- No run is empty. -/
  nil_notMem : [] ∉ runs
  /-- Within a run no two neighbours are factors side by side. -/
  apart : ∀ run ∈ runs, run.IsChain fun c d ↦ ¬Juxtaposed c d
  /-- At a joint the last character of a run and the first of the next are. -/
  joint : runs.IsChain fun run next ↦ ∃ hrun hnext, Juxtaposed (run.getLast hrun) (next.head hnext)

/-! ### Neighbours

Two ways of saying when neighbours multiply, the reader's and the one above. -/

variable {c d : Char} {text next result : Text} {runs : List Text}

/-- The two classes of operand characters do not overlap. -/
theorem not_isDigit_of_isAlpha (h : c.isAlpha = true) : ¬c.isDigit = true := fun hdigit ↦ by
  rw [isAlpha_of_isDigit hdigit] at h
  cases h

/-- The reader compares neighbours by two cases that overlap. Taken together they are the two
classes of characters, less the pairs of digits. -/
theorem multiplies_iff_juxtaposed : multiplies c d = true ↔ Juxtaposed c d := by
  have hleft : c.isAlpha = true ∨ c = ')' → ¬c.isDigit = true := by
    rintro (h | rfl)
    · exact not_isDigit_of_isAlpha h
    · decide
  have hright : d.isAlpha = true ∨ d = '(' → ¬d.isDigit = true := by
    rintro (h | rfl)
    · exact not_isDigit_of_isAlpha h
    · decide
  simp only [multiplies, Char.isAlphanum, Juxtaposed, Bool.or_eq_true, Bool.and_eq_true,
    beq_iff_eq, or_assoc]
  constructor
  · rintro (⟨hc, hd⟩ | ⟨hc, hd⟩)
    · exact ⟨hc, hd.imp_right Or.inr, fun hdigits ↦ hright hd hdigits.2⟩
    · exact ⟨hc.imp_right Or.inr, hd, fun hdigits ↦ hleft hc hdigits.1⟩
  · rintro ⟨hc, hd, hdigits⟩
    -- one of the two is no digit, and that one decides which case it is
    by_cases hdigit : c.isDigit = true
    · exact Or.inl ⟨hc, hd.imp_right fun h ↦ h.resolve_left fun h ↦ hdigits ⟨hdigit, h⟩⟩
    · exact Or.inr ⟨hc.imp_right fun h ↦ h.resolve_left hdigit, hd⟩

/-- And so they are not factors side by side exactly if the reader leaves them as they are. -/
theorem multiplies_eq_false_iff : multiplies c d = false ↔ ¬Juxtaposed c d := by
  rw [← multiplies_iff_juxtaposed, Bool.not_eq_true]

/-- Neither neighbour is dropped with the blanks. -/
theorem Juxtaposed.isBlank_eq_false (h : Juxtaposed c d) :
    isBlank c = false ∧ isBlank d = false := by
  obtain ⟨hleft, hright, -⟩ := h
  have halphanum : ∀ {c : Char}, c.isAlpha = true ∨ c.isDigit = true → isBlank c = false := fun h ↦
    isBlank_of_isAlphanum (Bool.or_eq_true_iff.2 h)
  constructor
  · rcases hleft with h | h | rfl
    · exact halphanum (Or.inl h)
    · exact halphanum (Or.inr h)
    · rfl
  · rcases hright with h | h | rfl
    · exact halphanum (Or.inl h)
    · exact halphanum (Or.inr h)
    · rfl

/-! ### Cutting a scan -/

/-- The scan by its first two characters. This is its definition, with the comparison of neighbours
by `Juxtaposed`. -/
theorem explicitProducts_cons_cons (c d : Char) (rest : Text) :
    explicitProducts (c :: d :: rest) =
      c :: ((if Juxtaposed c d then ['*'] else []) ++ explicitProducts (d :: rest)) := by
  rw [explicitProducts]
  by_cases h : Juxtaposed c d
  · rw [if_pos (multiplies_iff_juxtaposed.2 h), if_pos h]
    rfl
  · rw [if_neg fun hmultiplies ↦ h (multiplies_iff_juxtaposed.1 hmultiplies), if_neg h]
    rfl

/-- **A scan can be cut between any two neighbours**, and at the cut is a `*` exactly if they are
factors side by side. -/
theorem explicitProducts_append (before : Text) (c d : Char) (after : Text) :
    explicitProducts (before ++ c :: d :: after) =
      explicitProducts (before ++ [c]) ++ (if Juxtaposed c d then ['*'] else []) ++
        explicitProducts (d :: after) := by
  induction before with
  | nil => exact explicitProducts_cons_cons c d after
  | cons a before ih =>
    cases before with
    | nil =>
      simp only [List.nil_append, List.cons_append] at ih ⊢
      rw [explicitProducts_cons_cons, ih, explicitProducts_cons_cons]
      simp only [List.cons_append, List.append_assoc]
    | cons b before =>
      simp only [List.cons_append] at ih ⊢
      rw [explicitProducts_cons_cons, ih, explicitProducts_cons_cons]
      simp only [List.cons_append, List.append_assoc]

/-- Nothing is put in front of a text. -/
theorem head?_explicitProducts (text : Text) : (explicitProducts text).head? = text.head? := by
  cases text with
  | nil => rfl
  | cons c rest =>
    obtain ⟨tail, htail⟩ := explicitProducts_cons c rest
    rw [htail]
    rfl

/-! ### Texts whose products are written out

They are the texts that the scan leaves alone, and the texts that no step can be taken from. -/

/-- A scan leaves no product to be written out. -/
theorem isWrittenOut_explicitProducts (text : Text) : (explicitProducts text).IsWrittenOut := by
  fun_induction explicitProducts text with
  | case1 => exact List.isChain_nil
  | case2 c => exact List.isChain_singleton c
  | case3 c d rest hmultiplies ih =>
    refine List.isChain_cons_cons.2 ⟨(multiplies_symbol .times c).1, List.isChain_cons.2 ⟨?_, ih⟩⟩
    exact fun e _ ↦ (multiplies_symbol .times e).2
  | case4 c d rest hapart ih =>
    refine List.isChain_cons.2 ⟨fun e he ↦ ?_, ih⟩
    rw [head?_explicitProducts] at he
    cases he
    exact Bool.eq_false_iff.2 hapart

/-- The scan changes a text exactly if there is a product to be written out. -/
theorem explicitProducts_eq_self_iff : explicitProducts text = text ↔ text.IsWrittenOut := by
  refine ⟨fun h ↦ ?_, explicitProducts_of_isChain⟩
  rw [← h]
  exact isWrittenOut_explicitProducts text

/-- The products are written out exactly when there is no step left. -/
theorem Text.isWrittenOut_iff : text.IsWrittenOut ↔ ∀ next, ¬WritesProduct text next := by
  rw [IsWrittenOut, List.isChain_iff_forall_rel_of_append_cons_cons]
  constructor
  · intro h next hnext
    cases hnext with
    | between before after hjuxtaposed => exact multiplies_eq_false_iff.1 (h rfl) hjuxtaposed
  · intro h c d before after heq
    refine multiplies_eq_false_iff.2 fun hjuxtaposed ↦ ?_
    subst heq
    exact h _ (.between before after hjuxtaposed)

/-! ### One product at a time -/

namespace WritesProduct

/-- A step behind another character. -/
theorem cons (c : Char) (h : WritesProduct text next) : WritesProduct (c :: text) (c :: next) := by
  cases h with
  | between before after h => exact .between (c :: before) after h

/-- A step only puts something in. -/
theorem sublist (h : WritesProduct text next) : text.Sublist next := by
  cases h with
  | @between before c d after h =>
    exact (List.Sublist.refl before).append
      (((List.Sublist.refl (d :: after)).cons '*').cons_cons c)

/-- **A step changes nothing of what the scan makes of a text.** -/
theorem explicitProducts_eq (h : WritesProduct text next) :
    explicitProducts next = explicitProducts text := by
  cases h with
  | @between before c d after h =>
    have hfirst : ¬Juxtaposed c '*' := multiplies_eq_false_iff.1 (multiplies_symbol .times c).1
    have hsecond : ¬Juxtaposed '*' d := multiplies_eq_false_iff.1 (multiplies_symbol .times d).2
    rw [explicitProducts_append before c '*', explicitProducts_cons_cons '*' d, if_neg hfirst,
      if_neg hsecond, explicitProducts_append before c d, if_pos h]
    simp only [List.append_assoc, List.nil_append, List.cons_append]

/-- Dropping the blanks drops neither a factor nor what is put between two. -/
theorem withoutBlanks (h : WritesProduct text next) :
    WritesProduct text.withoutBlanks next.withoutBlanks := by
  cases h with
  | @between before c d after h =>
    obtain ⟨hc, hd⟩ := h.isBlank_eq_false
    have htimes : isBlank '*' = false := isBlank_symbol .times
    have hstep := WritesProduct.between (Text.withoutBlanks before) (Text.withoutBlanks after) h
    simpa [Text.withoutBlanks, List.filter_append, hc, hd, htimes] using hstep

end WritesProduct

/-! ### From one product to all

Steps lead from a text to its scan, one for each joint, and so all that each step respects holds
between the two. -/

/-- **A scan is a sequence of steps.** -/
theorem reflTransGen_explicitProducts (text : Text) :
    ReflTransGen WritesProduct text (explicitProducts text) := by
  fun_induction explicitProducts text with
  | case1 => exact .refl
  | case2 c => exact .refl
  | case3 c d rest hmultiplies ih =>
    have hfirst := WritesProduct.between [] rest (multiplies_iff_juxtaposed.1 hmultiplies)
    exact .head hfirst (ih.lift (fun rest ↦ c :: '*' :: rest) fun _ _ h ↦ (h.cons '*').cons c)
  | case4 c d rest hapart ih => exact ih.lift (c :: ·) fun _ _ h ↦ h.cons c

/-- **What every step respects holds between a text and its scan.** -/
theorem explicitProducts_induction {motive : Text → Text → Prop} (hrefl : ∀ text, motive text text)
    (htrans : ∀ {a b c}, motive a b → motive b c → motive a c)
    (hstep : ∀ {text next}, WritesProduct text next → motive text next) (text : Text) :
    motive text (explicitProducts text) := by
  have hsteps := reflTransGen_explicitProducts text
  generalize explicitProducts text = result at hsteps
  induction hsteps with
  | refl => exact hrefl text
  | tail _ h ih => exact htrans ih (hstep h)

/-- Scanning drops nothing and changes no order. -/
theorem sublist_explicitProducts (text : Text) : text.Sublist (explicitProducts text) :=
  explicitProducts_induction List.Sublist.refl List.Sublist.trans WritesProduct.sublist text

/-- However many steps are taken, the scan stays the same. -/
theorem explicitProducts_eq_of_reflTransGen (h : ReflTransGen WritesProduct text next) :
    explicitProducts next = explicitProducts text := by
  induction h with
  | refl => rfl
  | tail _ hstep ih => exact hstep.explicitProducts_eq.trans ih

/-- **One scan does what steps do that are taken for as long as there are any**, in whatever
order. -/
theorem reflTransGen_writesProduct_iff :
    ReflTransGen WritesProduct text result ∧ (∀ next, ¬WritesProduct result next) ↔
      result = explicitProducts text := by
  rw [← Text.isWrittenOut_iff]
  constructor
  · rintro ⟨hsteps, hwritten⟩
    rw [← explicitProducts_eq_of_reflTransGen hsteps, explicitProducts_eq_self_iff.2 hwritten]
  · rintro rfl
    exact ⟨reflTransGen_explicitProducts text, isWrittenOut_explicitProducts text⟩

/-! ### Runs

The library's way of cutting a list wherever two neighbours are not related. Here they are related
unless they multiply. -/

/-- A text falls into runs in one way, which is the one that the library computes. -/
theorem Text.fallsInto_iff :
    text.FallsInto runs ↔ text.splitBy (fun c d ↦ !multiplies c d) = runs := by
  have hapart : ∀ c d, (!multiplies c d) = true ↔ ¬Juxtaposed c d := fun c d ↦ by
    rw [Bool.not_eq_true', multiplies_eq_false_iff]
  have hjoint : ∀ c d, (!multiplies c d) = false ↔ Juxtaposed c d := fun c d ↦ by
    rw [Bool.not_eq_false', multiplies_iff_juxtaposed]
  rw [List.splitBy_eq_iff]
  simp only [hapart, hjoint]
  constructor
  · rintro ⟨hflatten, hne, hruns, hjoints⟩
    exact ⟨hflatten.symm, hne, hruns, hjoints⟩
  · rintro ⟨hflatten, hne, hruns, hjoints⟩
    exact ⟨hflatten.symm, hne, hruns, hjoints⟩

/-- **With a `*` at every joint, the runs are the text with its products written out.** -/
theorem Text.FallsInto.explicitProducts_eq (h : text.FallsInto runs) :
    explicitProducts text = ['*'].intercalate runs := by
  obtain ⟨rfl, hne, hapart, hjoint⟩ := h
  induction runs with
  | nil => rfl
  | cons run runs ih =>
    rw [List.mem_cons, not_or] at hne
    have hrun : explicitProducts run = run := explicitProducts_of_isChain
      ((hapart run List.mem_cons_self).imp fun _ _ ↦ multiplies_eq_false_iff.2)
    have hrest :=
      ih hne.2 (fun other hmem ↦ hapart other (List.mem_cons_of_mem run hmem)) hjoint.tail
    cases runs with
    | nil => rw [List.flatten_singleton, List.intercalate_singleton, hrun]
    | cons following runs =>
      obtain ⟨hlast, hhead, hjuxtaposed⟩ := hjoint.rel
      -- the joint is a cut between two neighbours, with a run before it
      obtain ⟨front, c, rfl⟩ : ∃ front c, run = front ++ [c] :=
        ⟨run.dropLast, run.getLast hlast, (List.dropLast_append_getLast hlast).symm⟩
      obtain ⟨d, back, rfl⟩ := List.exists_cons_of_ne_nil hhead
      rw [List.getLast_append_singleton, List.head_cons] at hjuxtaposed
      calc explicitProducts ((front ++ [c]) :: (d :: back) :: runs).flatten
        _ = explicitProducts (front ++ c :: d :: (back ++ runs.flatten)) := by
          simp only [List.flatten_cons, List.append_assoc, List.cons_append, List.nil_append]
        _ = front ++ [c] ++ ['*'] ++ explicitProducts ((d :: back) :: runs).flatten := by
          rw [explicitProducts_append, if_pos hjuxtaposed, hrun, List.flatten_cons,
            List.cons_append]
        _ = ['*'].intercalate ((front ++ [c]) :: (d :: back) :: runs) := by
          rw [hrest, List.intercalate_cons_cons]

/-- The runs of a text exist, and they are unique. -/
theorem Text.existsUnique_fallsInto (text : Text) :
    ∃! runs, text.FallsInto runs ∧ explicitProducts text = ['*'].intercalate runs := by
  have hruns : text.FallsInto (text.splitBy fun c d ↦ !multiplies c d) := fallsInto_iff.2 rfl
  refine ⟨_, ⟨hruns, hruns.explicitProducts_eq⟩, ?_⟩
  rintro runs ⟨h, -⟩
  exact (fallsInto_iff.1 h).symm

/-! ### Reading -/

/-- Products may be written out before the blanks are dropped, though some neighbours meet only
then. -/
theorem scanned_explicitProducts (text : Text) :
    Text.scanned (explicitProducts text) = text.scanned :=
  explicitProducts_eq_of_reflTransGen <|
    (reflTransGen_explicitProducts text).lift Text.withoutBlanks fun _ _ h ↦ h.withoutBlanks

/-- A text and the text with its products written out are read as the same tree, or not read for the
same reason. -/
theorem Node.read_explicitProducts (limits : Limits) (text : Text) (root : Bool) :
    read limits (explicitProducts text) root = read limits text root := by
  have hscanned := scanned_explicitProducts text
  rw [Text.scanned, Text.scanned] at hscanned
  rw [read, read, hscanned]

/-- **One scan writes out every product and nothing else.** No two neighbours of the result
multiply, and scanning it again changes nothing. The text falls into runs, in one way only, that are
the text one after the other and the result with a `*` at every joint, so leaving out what was put
in gives back the text. Between any two neighbours there is a `*` put in exactly if one can end a
factor, the other can begin one, and they are not both digits. The result is the only one that
putting in one `*` after the other can end with. And a text is read as the same tree as its result,
or refused as it is, within every limit and as a root or not. -/
theorem products_written_out (text : Text) :
    ((explicitProducts text).IsChain fun c d ↦ multiplies c d = false) ∧
    explicitProducts (explicitProducts text) = explicitProducts text ∧
    (∃! runs, text.FallsInto runs ∧ explicitProducts text = ['*'].intercalate runs) ∧
    (∀ before c d after, text = before ++ c :: d :: after →
      explicitProducts text =
        explicitProducts (before ++ [c]) ++ (if Juxtaposed c d then ['*'] else []) ++
          explicitProducts (d :: after)) ∧
    (∀ result, ReflTransGen WritesProduct text result ∧ (∀ next, ¬WritesProduct result next) ↔
      result = explicitProducts text) ∧
    ∀ (limits : Limits) (root : Bool),
      Node.read limits (explicitProducts text) root = Node.read limits text root := by
  refine ⟨isWrittenOut_explicitProducts text,
    explicitProducts_eq_self_iff.2 (isWrittenOut_explicitProducts text),
    text.existsUnique_fallsInto, ?_, fun result ↦ reflTransGen_writesProduct_iff,
    fun limits ↦ Node.read_explicitProducts limits text⟩
  rintro before c d after rfl
  exact explicitProducts_append before c d after

/-- In `2x(y)` there is a `*` put in between `x` and the parenthesis. -/
theorem products_written_out_beforeParenthesis :
    ['2', 'x', '(', 'y', ')'] = ['2'] ++ 'x' :: '(' :: ['y', ')'] ∧
      explicitProducts ['2', 'x', '(', 'y', ')'] =
        explicitProducts ['2', 'x'] ++ ['*'] ++ explicitProducts ['(', 'y', ')'] :=
  ⟨rfl, (products_written_out ['2', 'x', '(', 'y', ')']).2.2.2.1 ['2'] 'x' '(' ['y', ')'] rfl⟩

end EquationSteps
