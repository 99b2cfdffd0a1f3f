import EquationSteps.Proofs.Algebra.Exponents
import EquationSteps.Proofs.Reading.Letters

/-!
# Exponents fit into a word

The evaluation of a text and the comparison of two texts are done once more with a bound on all
powers (`evaluateWithin`, `exactlyEqualWithin`). They come to the same as without a bound as long as
the bound is at least the number of letters, each letter counted as often as it stands there
(`powers_le_letters`). With the greatest number that a word of 32 bits can hold as the bound, this
says that such words do for the exponents of any text that has fewer than `2 ^ 32` letters.

The number of letters is what the two parts of a quotient are bounded by together: a letter is a
quotient with powers up to one, and taking in an operand adds its letters to the bound
(`RationalFunction.combineWithin_eq`, `RationalFunction.IsWithin.combine`). What an evaluation and
its bounded form have in common is `ComputesWithin`; it goes along the recursion of the evaluation.

**What the bounded computation adds** is a third outcome. Where the unbounded one has a value or
fails, the bounded one has the same value, the same failure, or stops with `BoundedError.exceeded`.
The theorem excludes the last by an equation: the bounded computation *is* the unbounded one,
failures included. So nothing has to be said about the intermediate results one by one; they are all
within the bound, or the equation would not hold.

**Why two bounds in a comparison.** Two texts are compared by multiplying crosswise, and the powers
in the products are sums of powers from both. The bound is the number of letters of the two texts
together, and for texts that just fit by themselves a comparison may not.
-/

namespace EquationSteps

open RationalFunction

namespace Node

/-- The value of a leaf, if its powers are within the bound. -/
def atomValueWithin (bound : ℕ) (text : Text) : Except BoundedError RationalFunction := do
  let f ← (atomValue text).mapError .value
  if f.IsWithin bound then .ok f else .error .exceeded

mutual

/-- The value of a node's content, with powers within a bound. -/
def contentValueWithin (bound : ℕ) : Node → Except BoundedError RationalFunction
  | .atom _ text => atomValueWithin bound text
  | .group _ [] => .ok (.constant 0)
  | .group _ (first :: rest) => do
    let f ← contentValueWithin bound first
    chainValueWithin bound (.ofSign first.sign) (f.negateIf first.sign) rest

/-- The value of a group of which the operands up to some place have the value `f`, with powers
within a bound. -/
def chainValueWithin (bound : ℕ) (family : Family) (f : RationalFunction) :
    List Node → Except BoundedError RationalFunction
  | [] => .ok f
  | node :: nodes => do
    let g ← contentValueWithin bound node
    let f ← f.combineWithin bound family node.sign g
    chainValueWithin bound family f nodes

end

/-- The value of a tree, with powers within a bound. -/
def valueWithin (bound : ℕ) (node : Node) : Except BoundedError RationalFunction := do
  let f ← node.contentValueWithin bound
  .ok (f.negateIf node.sign)

end Node

/-- The rational function that a text denotes, with powers within a bound. -/
def evaluateWithin (bound : ℕ) (limits : Limits) (text : Text) :
    Except BoundedError RationalFunction :=
  match Node.read limits text false with
  | .ok node => node.valueWithin bound
  | .error cause => .error (.value (.unreadable cause))

/-- Whether two texts are equal, with powers within a bound, those of the cross products
included. -/
def exactlyEqualWithin (bound : ℕ) (limits : Limits) (a b : Text) : Except BoundedError Bool := do
  let f ← evaluateWithin bound limits a
  let g ← evaluateWithin bound limits b
  f.equalsWithin bound g

/-- A computation whose powers are all within some size: what it comes to is so, and a bound of at
least this size makes no difference. -/
structure ComputesWithin (bound size : ℕ) (bounded : Except BoundedError RationalFunction)
    (value : Except ValueError RationalFunction) : Prop where
  isProper : ∀ f, value = .ok f → f.IsProper
  isWithin : ∀ f, value = .ok f → f.IsWithin size
  eq_mapError : size ≤ bound → bounded = value.mapError .value

/-! ### Computations within a size

The pair of a computation and its bounded form, under the operations from which evaluation is
made. -/

namespace ComputesWithin

variable {bound i j : ℕ} {bounded : Except BoundedError RationalFunction}
  {value : Except ValueError RationalFunction}

/-- A proper quotient within the size is computed, whatever the bound. -/
theorem ok {f : RationalFunction} (hf : f.IsProper) (hi : f.IsWithin i) :
    ComputesWithin bound i (.ok f) (.ok f) where
  isProper _ h := Except.ok.inj h ▸ hf
  isWithin _ h := Except.ok.inj h ▸ hi
  eq_mapError _ := rfl

/-- Failures that have nothing to do with powers are the same in both. -/
theorem error (cause : ValueError) :
    ComputesWithin bound i (.error (.value cause)) (.error cause) where
  isProper _ h := by cases h
  isWithin _ h := by cases h
  eq_mapError _ := rfl

/-- A computation and what goes on with its result are together within what the second one is. -/
theorem bind {nextBounded : RationalFunction → Except BoundedError RationalFunction}
    {next : RationalFunction → Except ValueError RationalFunction}
    (h : ComputesWithin bound i bounded value) (hle : i ≤ j)
    (hnext : ∀ f : RationalFunction, f.IsProper → f.IsWithin i →
      ComputesWithin bound j (nextBounded f) (next f)) :
    ComputesWithin bound j (bounded >>= nextBounded) (value >>= next) := by
  have hbounded : j ≤ bound → bounded = value.mapError .value := fun hbound ↦
    h.eq_mapError (hle.trans hbound)
  cases hvalue : value with
  | error cause =>
    have herror : ComputesWithin bound j (.error (.value cause)) (.error cause) := .error cause
    refine ⟨herror.isProper, herror.isWithin, fun hbound ↦ ?_⟩
    rw [hbounded hbound, hvalue]
    exact herror.eq_mapError hbound
  | ok f =>
    have hf := hnext f (h.isProper f hvalue) (h.isWithin f hvalue)
    refine ⟨hf.isProper, hf.isWithin, fun hbound ↦ ?_⟩
    rw [hbounded hbound, hvalue]
    exact hf.eq_mapError hbound

/-- Taking in an operand adds its size. -/
theorem combine {f g : RationalFunction} (hf : f.IsProper) (hg : g.IsProper) (hi : f.IsWithin i)
    (hj : g.IsWithin j) (family : Family) (sign : Sign) :
    ComputesWithin bound (i + j) (f.combineWithin bound family sign g)
      (f.combine family sign g) where
  isProper _ h := hf.combine hg h
  isWithin _ h := hi.combine hf hg hj h
  eq_mapError hbound := combineWithin_eq hf hg hi hj hbound family sign

end ComputesWithin

namespace Node

variable {bound : ℕ}

/-! ### Evaluation

A leaf is a number, which has no powers, or a letter, which has one. -/

/-- The value of a leaf is within the number of its letters. -/
theorem isWithin_of_atomValue {text : Text} {f : RationalFunction} (h : atomValue text = .ok f) :
    f.IsWithin (Text.letters text).length := by
  have hnumeral : ∀ text f size, atomValue.numeralValue text = .ok f → f.IsWithin size := by
    intro text f size h
    unfold atomValue.numeralValue at h
    split at h
    · cases h
      exact isWithin_constant _
    · split at h
      · cases h
        exact isWithin_constant _
      · cases h
  unfold atomValue at h
  split at h
  · split at h
    · next c halpha =>
      cases h
      refine isWithin_ofVariable c (le_of_eq ?_)
      rw [Text.letters, List.filter_cons_of_pos halpha]
      rfl
    · exact hnumeral _ _ _ h
  · exact hnumeral _ _ _ h

/-- So is computing it. -/
theorem computesWithin_atomValue (text : Text) :
    ComputesWithin bound (Text.letters text).length (atomValueWithin bound text)
      (atomValue text) where
  isProper _ := isProper_of_atomValue
  isWithin _ := isWithin_of_atomValue
  eq_mapError hbound := by
    rw [atomValueWithin]
    cases h : atomValue text with
    | error cause => rfl
    | ok f => exact if_pos ((isWithin_of_atomValue h).mono hbound)

/-- Along a group the letters of its operands add up. -/
theorem computesWithin_chainValue {nodes : List Node} (hnodes : ∀ node ∈ nodes,
      ComputesWithin bound node.letters.length (node.contentValueWithin bound) node.contentValue)
    (family : Family) {f : RationalFunction} {size : ℕ} (hf : f.IsProper)
    (hsize : f.IsWithin size) :
    ComputesWithin bound (size + (nodes.flatMap letters).length)
      (chainValueWithin bound family f nodes) (chainValue family f nodes) := by
  induction nodes generalizing f size with
  | nil => exact .ok hf hsize
  | cons node nodes ih =>
    obtain ⟨hnode, hnodes⟩ := List.forall_mem_cons.1 hnodes
    -- the value so far is within the letters so far, and that is what the rest of the group starts
    -- from
    rw [chainValueWithin, chainValue, List.flatMap_cons, List.length_append, ← Nat.add_assoc]
    refine hnode.bind (by omega) fun g hg hletters ↦ ?_
    exact (ComputesWithin.combine hf hg hsize hletters family node.sign).bind (Nat.le_add_right _ _)
      fun q hq hsum ↦ ih hnodes hq hsum

/-- **A tree is evaluated within the number of its letters.** -/
theorem computesWithin_contentValue (node : Node) :
    ComputesWithin bound node.letters.length (node.contentValueWithin bound) node.contentValue := by
  induction node using Node.induction with
  | atom tag text => exact computesWithin_atomValue text
  | group tag children ih =>
    rw [letters_group]
    cases children with
    | nil => exact .ok (.constant 0) (isWithin_constant 0)
    | cons first rest =>
      obtain ⟨hfirst, hrest⟩ := List.forall_mem_cons.1 ih
      rw [List.flatMap_cons, List.length_append]
      exact hfirst.bind (Nat.le_add_right _ _) fun f hf hletters ↦
        computesWithin_chainValue hrest _ (hf.negateIf _) (hletters.negateIf _)

end Node

/-- A text is evaluated within the number of its letters. -/
theorem computesWithin_evaluate (bound : ℕ) (limits : Limits) (text : Text) :
    ComputesWithin bound (Text.letters text).length (evaluateWithin bound limits text)
      (evaluate limits text) := by
  unfold evaluateWithin evaluate
  cases hread : Node.read limits text false with
  | error cause => exact .error _
  | ok node =>
    rw [← Node.letters_of_read hread]
    exact (Node.computesWithin_contentValue node).bind le_rfl fun f hf hletters ↦
      .ok (hf.negateIf _) (hletters.negateIf _)

/-- What an evaluation comes to, with powers within a bound. -/
structure EvaluatesWithin (bound : ℕ) (limits : Limits) (text : Text) : Prop where
  /-- No power exceeds the bound in anything that is computed. -/
  same : evaluateWithin bound limits text = (evaluate limits text).mapError .value
  /-- Nor does one in the value. -/
  value : ∀ f, evaluate limits text = .ok f → f.IsWithin bound

/-- What a comparison comes to, with powers within a bound. -/
structure ComparesWithin (bound : ℕ) (limits : Limits) (a b : Text) : Prop where
  /-- No power exceeds the bound in anything that is computed. -/
  same : exactlyEqualWithin bound limits a b =
    ((Oracle.exact limits).exactlyEqual a b).mapError .value
  /-- Nor does one in the two products that are compared and in their difference. -/
  crosswise : ∀ f g, evaluate limits a = .ok f → evaluate limits b = .ok g →
    (f.numerator * g.denominator).IsWithin bound ∧ (g.numerator * f.denominator).IsWithin bound ∧
      (f.numerator * g.denominator - g.numerator * f.denominator).IsWithin bound

/-- A comparison stays within the letters of both texts together. -/
theorem comparesWithin {bound : ℕ} {limits : Limits} {a b : Text}
    (h : (Text.letters a).length + (Text.letters b).length ≤ bound) :
    ComparesWithin bound limits a b := by
  have ha := computesWithin_evaluate bound limits a
  have hb := computesWithin_evaluate bound limits b
  constructor
  · show (evaluateWithin bound limits a >>= fun f ↦ evaluateWithin bound limits b >>=
      f.equalsWithin bound) =
      (evaluate limits a >>= fun f ↦ evaluate limits b >>= fun g ↦ .ok (f.equals g)).mapError .value
    rw [ha.eq_mapError (by omega), hb.eq_mapError (by omega)]
    cases hf : evaluate limits a with
    | error cause => rfl
    | ok f =>
      cases hg : evaluate limits b with
      | error cause => rfl
      | ok g =>
        exact equalsWithin_eq_ok (ha.isProper f hf) (hb.isProper g hg) (ha.isWithin f hf)
          (hb.isWithin g hg) h
  · intro f g hf hg
    obtain ⟨hleft, hright⟩ :=
      (ha.isWithin f hf).crosswise (ha.isProper f hf) (hb.isProper g hg) (hb.isWithin g hg)
    exact ⟨hleft.mono h, hright.mono h, (hleft.mono h).add (hright.mono h).neg⟩

/-- **Exponents are at most the number of letters**, in all that is computed for a text and, for two
texts together, in all that is computed to compare them. So a word of 32 bits is enough for the
exponents of any text with fewer than `2 ^ 32` letters, and for those of two such texts that are
compared. -/
theorem powers_le_letters (limits : Limits) :
    (∀ text, EvaluatesWithin (Text.letters text).length limits text) ∧
    (∀ a b, ComparesWithin ((Text.letters a).length + (Text.letters b).length) limits a b) ∧
    (∀ text, (Text.letters text).length < 2 ^ 32 → EvaluatesWithin (2 ^ 32 - 1) limits text) ∧
    ∀ a b, (Text.letters a).length + (Text.letters b).length < 2 ^ 32 →
      ComparesWithin (2 ^ 32 - 1) limits a b := by
  have hevaluates : ∀ {bound : ℕ} {text : Text}, (Text.letters text).length ≤ bound →
      EvaluatesWithin bound limits text := fun {bound text} h ↦
    have htext := computesWithin_evaluate bound limits text
    ⟨htext.eq_mapError h, fun f hf ↦ (htext.isWithin f hf).mono h⟩
  exact ⟨fun text ↦ hevaluates le_rfl, fun a b ↦ comparesWithin le_rfl,
    fun text h ↦ hevaluates (Nat.le_sub_one_of_lt h),
    fun a b h ↦ comparesWithin (Nat.le_sub_one_of_lt h)⟩

/-- `1/x+1/x` has two letters and comes to `2*x` over the square of `x`, which is not within a
smaller bound. To compare it with `2*x/(x*x)`, which has three letters, the cube of `x` is
computed. -/
theorem powers_le_letters_fractions : ∃ f g, evaluate .standard "1/x+1/x".toList = .ok f ∧
    evaluate .standard "2*x/(x*x)".toList = .ok g ∧
      evaluateWithin 1 .standard "1/x+1/x".toList = .error .exceeded ∧
        ¬(f.numerator * g.denominator).IsWithin 2 ∧ EvaluatesWithin 2 .standard "1/x+1/x".toList ∧
          ComparesWithin 5 .standard "1/x+1/x".toList "2*x/(x*x)".toList ∧
            EvaluatesWithin (2 ^ 32 - 1) .standard "1/x+1/x".toList ∧
              ComparesWithin (2 ^ 32 - 1) .standard "1/x+1/x".toList "2*x/(x*x)".toList := by
  have hfacts : ((evaluate .standard "1/x+1/x".toList).toOption.map fun f ↦ decide
      (((evaluate .standard "2*x/(x*x)".toList).toOption.map fun g ↦ decide
        (¬(f.numerator * g.denominator).IsWithin 2)) = some true)) = some true := by
    decide +kernel
  have hexceeded : evaluateWithin 1 .standard "1/x+1/x".toList = .error .exceeded := by
    decide +kernel
  obtain ⟨f, hf, hfacts⟩ := Except.exists_ok_of_toOption hfacts
  obtain ⟨g, hg, hcross⟩ := Except.exists_ok_of_toOption hfacts
  have htwo : (Text.letters "1/x+1/x".toList).length = 2 := by decide
  have hthree : (Text.letters "2*x/(x*x)".toList).length = 3 := by decide
  obtain ⟨hletters, hletters', hword, hword'⟩ := powers_le_letters .standard
  have hevaluates := hletters "1/x+1/x".toList
  have hcompares := hletters' "1/x+1/x".toList "2*x/(x*x)".toList
  rw [htwo] at hevaluates
  rw [htwo, hthree] at hcompares
  exact ⟨f, g, hf, hg, hexceeded, hcross, hevaluates, hcompares, hword _ (by decide),
    hword' _ _ (by decide)⟩

end EquationSteps
