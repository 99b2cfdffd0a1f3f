import EquationSteps.Equality.Memo
import EquationSteps.Equation.Edit
import Mathlib.Data.List.Dedup

/-!
# Remembering is transparent

An oracle with a memory of its answers cannot be told from the oracle alone. What it is used for is
put together as data: the three questions of an oracle, normalization, multiplying and dividing a
side, the edits of an equation, and the check of typed input (`Request`). A sequence of requests, in
which each one finds the memory that those before it left behind, gets the same responses as from
the oracle alone (`Memo.respondAll_empty`). The requests may be any, so each of them may depend on
the responses before it.

The memory grows by comparisons alone. It holds each pair of texts once that was compared and for
which the oracle has an answer (`Memo.Records`), which one comparison preserves
(`Memo.Records.equal`), and so does a computation with whatever comparisons it comes to
(`Memo.Records.remembering`). A comparison that failed leaves nothing behind, and is made again.

**One invariant for both halves.** That remembered answers are those of the oracle makes the
responses the same. That the remembered pairs are those that were compared successfully, each once,
counts them. `Records` has both, so a single induction over the requests proves that the responses
agree and what the memory holds in the end.

**Pairs are ordered.** Comparing two texts in the other order is another comparison, and is
remembered by itself. Asking for an opposite compares with the negated text, so it is remembered as
that comparison (`Request.asked`).
-/

namespace EquationSteps

/-- Whether the oracle has an answer for a pair of texts. -/
def Oracle.compares (oracle : Oracle) (pair : Text × Text) : Bool :=
  (oracle.exactlyEqual pair.1 pair.2).isOk

/-- The pairs of texts that a computation compares, one after the other, if the oracle answers. -/
def Inquiry.asked {α : Type} (oracle : Oracle) : Inquiry α → List (Text × Text)
  | done _ => []
  | ask a b resume => (a, b) :: (resume (oracle.exactlyEqual a b)).asked oracle

/-! ### Requests

Requests carry all that they depend on, so that a sequence of them is a list. -/

/-- What an oracle is used for. -/
inductive Request where
  /-- Whether two texts are equal. -/
  | equal (a b : Text)
  /-- Whether a text is the negation of another one. -/
  | opposite (a b : Text)
  /-- The fraction that a decimal literal denotes. -/
  | rationalize (literal : Text)
  /-- Normalizing a tree. -/
  | normalize (limits : Limits) (node : Node)
  /-- Multiplying a side by a factor. -/
  | multiply (limits : Limits) (factor : Text) (side : Node)
  /-- Dividing a side by a divisor. -/
  | divide (limits : Limits) (divisor : Text) (side : Node)
  /-- An edit of an equation. -/
  | edit (change : Edit) (equation : Equation)
  /-- Checking whether a text can be used for a purpose. -/
  | check (purpose : Purpose) (text : Text) (equation : Equation)

/-- What comes of a request: an answer, or the outcome of the work together with what became of the
tree or the equation. -/
inductive Response where
  | verdict (answer : Except ValueError Bool)
  | fraction (answer : Except ValueError Text)
  | normalized (outcome : Except TreeError Nat × Node)
  | transformed (outcome : Except TreeError Unit × Node)
  | edited (outcome : Except Rejection Unit × Equation)
  | checked (outcome : Except (List InputError) Unit)

/-- What comes of a request if the oracle alone answers. -/
def Oracle.respond (oracle : Oracle) : Request → Response
  | .equal a b => .verdict (oracle.exactlyEqual a b)
  | .opposite a b => .verdict (oracle.exactlyOpposite a b)
  | .rationalize literal => .fraction (oracle.rationalize literal)
  | .normalize limits node => .normalized (node.normalize oracle.rationalize limits)
  | .multiply limits factor side =>
    .transformed ((multiplySide oracle.rationalize limits factor side).answeredBy oracle)
  | .divide limits divisor side =>
    .transformed ((divideSide oracle.rationalize limits divisor side).answeredBy oracle)
  | .edit change equation => .edited ((change.apply { equation with oracle }).answeredBy oracle)
  | .check purpose text equation =>
    .checked ((Equation.checkInput purpose text { equation with oracle }).answeredBy oracle)

/-- What comes of a request if the oracle has a memory, and the memory afterwards. Only comparisons
go through the memory. -/
def Memo.respond (oracle : Oracle) (memo : Memo) : Request → Response × Memo
  | .equal a b => (memo.equal oracle a b).map .verdict id
  | .opposite a b => (memo.opposite oracle a b).map .verdict id
  | .rationalize literal => (.fraction (oracle.rationalize literal), memo)
  | .normalize limits node => (.normalized (node.normalize oracle.rationalize limits), memo)
  | .multiply limits factor side =>
    ((multiplySide oracle.rationalize limits factor side).remembering oracle memo).map
      .transformed id
  | .divide limits divisor side =>
    ((divideSide oracle.rationalize limits divisor side).remembering oracle memo).map
      .transformed id
  | .edit change equation =>
    ((change.apply { equation with oracle }).remembering oracle memo).map .edited id
  | .check purpose text equation =>
    ((Equation.checkInput purpose text { equation with oracle }).remembering oracle memo).map
      .checked id

/-- The pairs of texts that a request makes the oracle compare. An expression is the opposite of
another one if it equals the negated one. -/
def Request.asked (oracle : Oracle) : Request → List (Text × Text)
  | .equal a b => [(a, b)]
  | .opposite a b => [(a, negatedText b)]
  | .rationalize _ | .normalize _ _ => []
  | .multiply limits factor side =>
    (multiplySide oracle.rationalize limits factor side).asked oracle
  | .divide limits divisor side => (divideSide oracle.rationalize limits divisor side).asked oracle
  | .edit change equation => (change.apply { equation with oracle }).asked oracle
  | .check purpose text equation =>
    (Equation.checkInput purpose text { equation with oracle }).asked oracle

/-- Responds to requests one after the other, and hands the memory on. -/
def Memo.respondAll (oracle : Oracle) : Memo → List Request → List Response × Memo
  | memo, [] => ([], memo)
  | memo, request :: requests =>
    let (response, memo) := memo.respond oracle request
    let (responses, memo) := memo.respondAll oracle requests
    (response :: responses, memo)

namespace Memo

variable {oracle : Oracle} {memo : Memo} {asked : List (Text × Text)}

/-! ### What a memory holds

The invariant, and how one comparison and one computation keep it. -/

/-- The pairs of texts for which an answer is remembered. -/
def pairs (memo : Memo) : List (Text × Text) :=
  memo.answers.map Prod.fst

/-- A memory of the pairs of texts that were compared: of those that the oracle can compare each is
remembered once, and with the answer of the oracle. -/
structure Records (oracle : Oracle) (asked : List (Text × Text)) (memo : Memo) : Prop where
  agrees : memo.Agrees oracle
  nodup : memo.pairs.Nodup
  mem_iff : ∀ pair, pair ∈ memo.pairs ↔ pair ∈ asked ∧ oracle.compares pair = true

/-- Nothing is remembered before anything is compared. -/
theorem records_empty (oracle : Oracle) : empty.Records oracle [] :=
  ⟨agrees_empty oracle, List.nodup_nil, fun _ ↦
    iff_of_false List.not_mem_nil fun h ↦ List.not_mem_nil h.1⟩

/-- As many comparisons are remembered as different pairs were compared successfully. -/
theorem Records.size_eq (h : memo.Records oracle asked) :
    memo.size = (asked.filter oracle.compares).dedup.length := by
  have hperm : memo.pairs.Perm (asked.filter oracle.compares).dedup := by
    rw [List.perm_ext_iff_of_nodup h.nodup (List.nodup_dedup _)]
    intro pair
    rw [List.mem_dedup, List.mem_filter, h.mem_iff]
  calc memo.size = memo.pairs.length := (List.length_map _).symm
    _ = (asked.filter oracle.compares).dedup.length := hperm.length_eq

/-- A pair is looked up without success exactly if it is not remembered. -/
theorem answer?_eq_none_iff {a b : Text} : memo.answer? a b = none ↔ (a, b) ∉ memo.pairs := by
  rw [answer?, List.lookup_eq_none_iff, pairs, List.mem_map, not_exists]
  refine forall_congr' fun entry ↦ ?_
  rw [not_and]
  exact imp_congr_right fun _ ↦ bne_iff_ne.trans ⟨Ne.symm, Ne.symm⟩

/-- The pairs after a comparison. -/
theorem pairs_equal (a b : Text) : (memo.equal oracle a b).2.pairs =
    if (a, b) ∉ memo.pairs ∧ oracle.compares (a, b) = true then (a, b) :: memo.pairs
    else memo.pairs := by
  unfold equal Oracle.compares
  cases hanswer : memo.answer? a b with
  | some answer =>
    have hmem : ¬(a, b) ∉ memo.pairs := fun hnot ↦ by
      cases hanswer.symm.trans (answer?_eq_none_iff.2 hnot)
    rw [if_neg fun h ↦ hmem h.1]
  | none =>
    have hnew := answer?_eq_none_iff.1 hanswer
    dsimp only
    cases oracle.exactlyEqual a b with
    | ok answer => rw [if_pos ⟨hnew, rfl⟩]; rfl
    | error cause => rw [if_neg fun h ↦ by cases h.2]

/-- **One comparison is recorded**, unless it fails. -/
theorem Records.equal (h : memo.Records oracle asked) (a b : Text) :
    (memo.equal oracle a b).2.Records oracle (asked ++ [(a, b)]) := by
  refine ⟨h.agrees.equal_snd a b, ?_, fun pair ↦ ?_⟩
  · rw [pairs_equal]
    split
    · rename_i hnew
      exact List.nodup_cons.2 ⟨hnew.1, h.nodup⟩
    · exact h.nodup
  · rw [pairs_equal, List.mem_append, List.mem_singleton, or_and_right, ← h.mem_iff]
    split
    · rename_i hnew
      rw [List.mem_cons, or_comm]
      refine or_congr_right ⟨?_, And.left⟩
      rintro rfl
      exact ⟨rfl, hnew.2⟩
    · rename_i hold
      rw [not_and] at hold
      refine ⟨Or.inl, ?_⟩
      rintro (hmem | ⟨rfl, hcompares⟩)
      · exact hmem
      · -- what can be compared and is not new was remembered before
        by_contra hnew
        exact hold hnew hcompares

/-- **So are the comparisons of a computation.** -/
theorem Records.remembering {α : Type} (h : memo.Records oracle asked) (inquiry : Inquiry α) :
    (inquiry.remembering oracle memo).2.Records oracle (asked ++ inquiry.asked oracle) := by
  induction inquiry generalizing memo asked with
  | done result =>
    rw [Inquiry.asked, List.append_nil]
    exact h
  | ask a b resume ih =>
    have hrest := ih (oracle.exactlyEqual a b) (h.equal a b)
    rw [List.append_assoc, ← equal_fst h.agrees a b] at hrest
    rw [Inquiry.asked, ← equal_fst h.agrees a b]
    exact hrest

/-! ### Sequences of requests

By induction on the sequence, for any memory that is right to start with. -/

/-- One request gets the response of the oracle, and what it compares is recorded. -/
theorem Records.respond (h : memo.Records oracle asked) (request : Request) :
    (memo.respond oracle request).1 = oracle.respond request ∧
      (memo.respond oracle request).2.Records oracle (asked ++ request.asked oracle) := by
  have hinquiry : ∀ {α : Type} (inquiry : Inquiry α) (response : α → Response),
      ((inquiry.remembering oracle memo).map response id).1 = response (inquiry.answeredBy oracle) ∧
        ((inquiry.remembering oracle memo).map response id).2.Records oracle
          (asked ++ inquiry.asked oracle) := fun inquiry response ↦
    ⟨congrArg response (inquiry.remembering_fst h.agrees), h.remembering inquiry⟩
  have hsame : memo.Records oracle (asked ++ []) := (List.append_nil asked).symm ▸ h
  cases request with
  | equal a b => exact hinquiry (.equal a b) .verdict
  | opposite a b => exact hinquiry (.opposite a b) .verdict
  | rationalize literal => exact ⟨rfl, hsame⟩
  | normalize limits node => exact ⟨rfl, hsame⟩
  | multiply limits factor side => exact hinquiry _ .transformed
  | divide limits divisor side => exact hinquiry _ .transformed
  | edit change equation => exact hinquiry _ .edited
  | check purpose text equation => exact hinquiry _ .checked

/-- Each request of a sequence gets the response of the oracle, and what they all compare is
recorded. -/
theorem Records.respondAll (h : memo.Records oracle asked) (requests : List Request) :
    (memo.respondAll oracle requests).1 = requests.map oracle.respond ∧
      (memo.respondAll oracle requests).2.Records oracle
        (asked ++ requests.flatMap (Request.asked oracle)) := by
  induction requests generalizing memo asked with
  | nil => exact ⟨rfl, (List.append_nil asked).symm ▸ h⟩
  | cons request requests ih =>
    obtain ⟨hresponse, hrecords⟩ := h.respond request
    obtain ⟨hresponses, hrest⟩ := ih hrecords
    rw [Memo.respondAll, List.map_cons, List.flatMap_cons, ← List.append_assoc]
    exact ⟨congrArg₂ List.cons hresponse hresponses, hrest⟩

/-- **An oracle with a memory responds like the oracle alone**, to every sequence of questions,
normalizations, multiplications, divisions, edits and checks, each of which finds what those before
it left in the memory. The number of comparisons that are remembered in the end is the number of
different pairs of texts that were compared on the way and for which the oracle has an answer. -/
theorem respondAll_empty (oracle : Oracle) (requests : List Request) :
    (empty.respondAll oracle requests).1 = requests.map oracle.respond ∧
      (empty.respondAll oracle requests).2.size =
        ((requests.flatMap (Request.asked oracle)).filter oracle.compares).dedup.length := by
  obtain ⟨hresponses, hrecords⟩ := (records_empty oracle).respondAll requests
  exact ⟨hresponses, hrecords.size_eq⟩

end Memo

end EquationSteps
