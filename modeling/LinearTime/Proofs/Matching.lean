/-
  LinearTime.Proofs.Matching — what a match and a filled replacement are.

  A successful match extends the bindings so that the pattern, with its
  placeholders bound, is the matched formula up to swapping operands of
  conjunctions and disjunctions (`Matches`).  Filling a replacement builds a
  formula whose operators stand for those of the replacement (`Filled`).

  Main results:
    * `extend?_extended` — which operands a successful match paired, in which order.
    * `extend?_matches` — a successful match is one in the sense of `Matches`.
    * `fill_leads` — what is filled is filled in the sense of `Filled`.
    * `Matches.holds`, `Filled.holds` — both mean what the template means once
      its placeholders mean what they are bound to.
-/

import LinearTime.Proofs.Sharing
import LinearTime.Rules.Matching

namespace LinearTime

variable {α : Type}

namespace Bindings

/-! ## §1. Matches -/

/-- All that `b` binds is bound to the same in `c`. -/
def Extends (b c : Bindings α) : Prop := ∀ name f, b.lookup name = some f → c.lookup name = some f

/-- What a name is bound to; names that are not bound stand for anything. -/
def given (b : Bindings α) (name : String) : Formula α := (b.lookup name).getD (.tt 0)

theorem given_of_lookup {b : Bindings α} {name : String} {f : Formula α}
    (h : b.lookup name = some f) : b.given name = f := by
  unfold given
  rw [h]
  rfl

/-- All formulas bound are shared. -/
def Within (b : Bindings α) (s : Session α) : Prop :=
  ∀ name f, b.lookup name = some f → f ∈ s.interned

/-- All formulas bound are on the list. -/
def From (b : Bindings α) (U : List (Formula α)) : Prop :=
  ∀ name f, b.lookup name = some f → f ∈ U

theorem From.subset {b : Bindings α} {U V : List (Formula α)} (h : b.From U)
    (hUV : ∀ f ∈ U, f ∈ V) : b.From V :=
  fun name f hf => hUV f (h name f hf)

/-- The formula is the pattern with its placeholders bound, up to swapping
    operands that may be exchanged. -/
inductive Matches (b : Bindings α) : Formula String → Formula α → Prop
  | prop {id : Nat} {name : String} {f : Formula α} (h : b.lookup name = some f) :
    Matches b (.prop id name) f
  | tt (i j : Nat) : Matches b (.tt i) (.tt j)
  | ff (i j : Nat) : Matches b (.ff i) (.ff j)
  | negProp {i k : Nat} {name : String} (j propId : Nat) {a : α}
    (h : b.lookup name = some (.prop propId a)) :
    Matches b (.negProp i k name) (.negProp j propId a)
  | next (i j : Nat) {p : Formula String} {f : Formula α} (h : Matches b p f) :
    Matches b (.next i p) (.next j f)
  | straight (i j : Nat) (op : BinaryOp) {p q : Formula String} {f g : Formula α}
    (hp : Matches b p f) (hq : Matches b q g) :
    Matches b (.binary i op p q) (.binary j op f g)
  | crossed (i j : Nat) {op : BinaryOp} (hop : op.isCommutative = true) {p q : Formula String}
    {f g : Formula α} (hq : Matches b q f) (hp : Matches b p g) :
    Matches b (.binary i op p q) (.binary j op f g)

theorem Extends.refl (b : Bindings α) : Extends b b := fun _ _ h => h

theorem Extends.trans {b c d : Bindings α} (h : Extends b c) (h' : Extends c d) : Extends b d :=
  fun name f hf => h' name f (h name f hf)

/-- A match stays one when more placeholders are bound. -/
theorem Matches.extend {b c : Bindings α} {p : Formula String} {f : Formula α}
    (h : Matches b p f) (hbc : Extends b c) : Matches c p f := by
  induction h with
  | prop h => exact .prop (hbc _ _ h)
  | tt i j => exact .tt i j
  | ff i j => exact .ff i j
  | negProp j propId h => exact .negProp j propId (hbc _ _ h)
  | next i j _ ih => exact .next i j ih
  | straight i j op _ _ ihp ihq => exact .straight i j op ihp ihq
  | crossed i j hop _ _ ihq ihp => exact .crossed i j hop ihq ihp

/-- How the bindings come about when a match succeeds: which operand is matched to
    which, and in what order. -/
inductive Extended : Formula String → Formula α → Bindings α → Bindings α → Prop
  | prop {i : Nat} {name : String} {f : Formula α} {b c : Bindings α}
    (h : b.assign? name f = some c) : Extended (.prop i name) f b c
  | tt (i j : Nat) {b : Bindings α} : Extended (.tt i) (.tt j) b b
  | ff (i j : Nat) {b : Bindings α} : Extended (.ff i) (.ff j) b b
  | negProp {i k : Nat} {name : String} (j propId : Nat) {a : α} {b c : Bindings α}
    (h : b.assign? name (.prop propId a) = some c) :
    Extended (.negProp i k name) (.negProp j propId a) b c
  | next (i j : Nat) {p : Formula String} {f : Formula α} {b c : Bindings α}
    (h : Extended p f b c) : Extended (.next i p) (.next j f) b c
  | straight (i j : Nat) (op : BinaryOp) {p q : Formula String} {f g : Formula α}
    {b c d : Bindings α} (hp : Extended p f b c) (hq : Extended q g c d) :
    Extended (.binary i op p q) (.binary j op f g) b d
  | backward (i j : Nat) (op : BinaryOp) {p q : Formula String} {f g : Formula α}
    {b c d : Bindings α} (hq : Extended q g b c) (hp : Extended p f c d) :
    Extended (.binary i op p q) (.binary j op f g) b d
  | crossed (i j : Nat) {op : BinaryOp} (hop : op.isCommutative = true)
    {p q : Formula String} {f g : Formula α} {b c d : Bindings α} (hq : Extended q f b c)
    (hp : Extended p g c d) : Extended (.binary i op p q) (.binary j op f g) b d

/-- A match that succeeds comes about in one of the ways listed. -/
theorem extend?_extended {p : Formula String} {f : Formula α} {b c : Bindings α}
    (hc : extend? p f b = some c) : Extended p f b c := by
  induction p generalizing f b c with
  | prop id name => exact .prop (by rwa [extend?] at hc)
  | tt i =>
    cases f <;> try cases hc
    exact .tt i _
  | ff i =>
    cases f <;> try cases hc
    exact .ff i _
  | negProp i k name =>
    cases f with
    | negProp j propId a => exact .negProp j propId (by rwa [extend?] at hc)
    | _ => cases hc
  | next i p ih =>
    cases f with
    | next j f => exact .next i j (ih (by rwa [extend?] at hc))
    | _ => cases hc
  | binary i op p q ihp ihq =>
    cases f with
    | binary j op' f g =>
      unfold extend? at hc
      split at hc
      next hop =>
        obtain rfl := beq_iff_eq.1 hop
        -- Which pairing of the operands is tried, and which of them is matched first.
        have hstraight (hc : (extend? p f b).bind (extend? q g) = some c) :
            Extended (.binary i op p q) (.binary j op f g) b c := by
          obtain ⟨d, hp, hq⟩ := Option.bind_eq_some_iff.1 hc
          exact .straight i j op (ihp hp) (ihq hq)
        have hcrossed (hcomm : op.isCommutative = true)
            (hc : (extend? q f b).bind (extend? p g) = some c) :
            Extended (.binary i op p q) (.binary j op f g) b c := by
          obtain ⟨d, hq, hp⟩ := Option.bind_eq_some_iff.1 hc
          exact .crossed i j hcomm (ihq hq) (ihp hp)
        cases op with
        | conj | disj =>
          dsimp only at hc
          split at hc
          next d hd => exact hstraight (hd.trans hc)
          next => exact hcrossed rfl hc
        | strongUntil | weakUntil => exact hstraight hc
        | release =>
          obtain ⟨d, hq, hp⟩ := Option.bind_eq_some_iff.1 hc
          exact .backward i j .release (ihq hq) (ihp hp)
      next => cases hc
    | _ => cases hc

/-- What a successful match leads to. -/
structure Found (U : List (Formula α)) (b c : Bindings α) (p : Formula String) (f : Formula α) :
    Prop where
  extends_ : Extends b c
  within : c.From U
  matches_ : Matches c p f

variable {U : List (Formula α)}

/-- Binding a name to a formula of the family keeps the bindings within it. -/
theorem assign?_found (hU : Formula.Family U) {b c : Bindings α} {name : String} {f : Formula α}
    (hb : b.From U) (hf : f ∈ U) (hc : b.assign? name f = some c) :
    Extends b c ∧ c.From U ∧ c.lookup name = some f := by
  unfold assign? at hc
  split at hc
  next g hg =>
    split at hc
    next hsame =>
      obtain rfl := Option.some.inj hc
      have hgf := hU.eq_of_id_eq (hb name g hg) hf (Formula.same_iff.1 hsame)
      exact ⟨.refl b, hb, hgf ▸ hg⟩
    next => cases hc
  next hnone =>
    obtain rfl := Option.some.inj hc
    refine ⟨fun other g hg => ?_, fun other g hg => ?_, List.lookup_cons_self⟩
    -- The new binding hides none: the name had no binding.
    · rw [List.lookup_cons]
      split
      next heq =>
        rw [beq_iff_eq.1 heq, hnone] at hg
        cases hg
      next => exact hg
    · rw [List.lookup_cons] at hg
      split at hg
      next =>
        obtain rfl := Option.some.inj hg
        exact hf
      next => exact hb other g hg

/-- Bindings found for a formula of the family match it and stay within the family. -/
theorem extend?_matches (hU : Formula.Family U) {p : Formula String} {f : Formula α}
    {b c : Bindings α} (hb : b.From U) (hf : f ∈ U) (hc : extend? p f b = some c) :
    Found U b c p f := by
  replace hc := extend?_extended hc
  induction hc with
  | prop hassign =>
    obtain ⟨hext, hwithin, hlookup⟩ := assign?_found hU hb hf hassign
    exact ⟨hext, hwithin, .prop hlookup⟩
  | tt i j => exact ⟨.refl _, hb, .tt i j⟩
  | ff i j => exact ⟨.refl _, hb, .ff i j⟩
  | negProp j propId hassign =>
    obtain ⟨hext, hwithin, hlookup⟩ := assign?_found hU hb (hU.prop_mem hf) hassign
    exact ⟨hext, hwithin, .negProp j propId hlookup⟩
  | next i j _ ih =>
    have hfound := ih hb (hU.next_mem hf)
    exact ⟨hfound.extends_, hfound.within, .next i j hfound.matches_⟩
  -- what the first operand is matched to stays so while the second one is
  | straight i j op _ _ ihp ihq =>
    have hp := ihp hb (hU.left_mem hf)
    have hq := ihq hp.within (hU.right_mem hf)
    exact ⟨hp.extends_.trans hq.extends_, hq.within,
      .straight i j op (hp.matches_.extend hq.extends_) hq.matches_⟩
  | backward i j op _ _ ihq ihp =>
    have hq := ihq hb (hU.right_mem hf)
    have hp := ihp hq.within (hU.left_mem hf)
    exact ⟨hq.extends_.trans hp.extends_, hp.within,
      .straight i j op hp.matches_ (hq.matches_.extend hp.extends_)⟩
  | crossed i j hop _ _ ihq ihp =>
    have hq := ihq hb (hU.left_mem hf)
    have hp := ihp hq.within (hU.right_mem hf)
    exact ⟨hq.extends_.trans hp.extends_, hp.within,
      .crossed i j hop (hq.matches_.extend hp.extends_) hp.matches_⟩

/-! ## §2. Filled replacements -/

/-- The formula stands for the template with its placeholders bound, built by
    the constructors. -/
inductive Filled (b : Bindings α) : Formula String → Formula α → Prop
  | prop {id : Nat} {name : String} {f : Formula α} (h : b.lookup name = some f) :
    Filled b (.prop id name) f
  | tt (i j : Nat) : Filled b (.tt i) (.tt j)
  | ff (i j : Nat) : Filled b (.ff i) (.ff j)
  | negProp {i k : Nat} {name : String} {f g : Formula α} (h : b.lookup name = some f)
    (neg : Formula.Negates f g) : Filled b (.negProp i k name) g
  | next (i j : Nat) {p : Formula String} {f : Formula α} (h : Filled b p f) :
    Filled b (.next i p) (.next j f)
  | binary (i : Nat) {op : BinaryOp} {p q : Formula String} {f g k : Formula α}
    (hp : Filled b p f) (hq : Filled b q g) (made : Formula.Made op f g k) :
    Filled b (.binary i op p q) k

/-- Filling a template with known formulas gives a filled template or, for an
    unbound placeholder, nothing. -/
theorem fill_leads [BEq α] {Sound : Session α → Prop} [Session.Discipline Sound]
    {s : Session α} (h : Sound s) {b : Bindings α} (hb : b.From (s.known Sound))
    (p : Formula String) :
    Build.Leads Sound (b.fill p).run s
      fun r t => ∀ g, r = some g → g ∈ t.known Sound ∧ Filled b p g := by
  induction p generalizing s with
  | prop id name => exact .pure h fun g hg => ⟨hb name g hg, .prop hg⟩
  | tt i =>
    refine ((Build.tt_leads h).mono ?_).option_lift
    rintro g t - ⟨hg, j, rfl⟩
    exact ⟨hg, .tt i j⟩
  | ff i =>
    refine ((Build.ff_leads h).mono ?_).option_lift
    rintro g t - ⟨hg, j, rfl⟩
    exact ⟨hg, .ff i j⟩
  | negProp i k name =>
    have hlookup : Build.Leads Sound
        (OptionT.mk (pure (b.lookup name)) : OptionT (Build α) (Formula α)).run s
        fun r t => ∀ f, r = some f → f ∈ t.known Sound ∧ b.lookup name = some f :=
      .pure h fun f hf => ⟨hb name f hf, hf⟩
    refine hlookup.option_bind ?_
    rintro f t ht - ⟨hf, hlookup⟩
    refine ((Build.not_leads ht hf).mono ?_).option_lift
    rintro g u - ⟨hg, hneg⟩
    exact ⟨hg, .negProp hlookup hneg⟩
  | next i p ih =>
    refine (ih h hb).option_bind ?_
    rintro f t ht - ⟨hf, hfilled⟩
    refine ((Build.next_leads ht hf).mono ?_).option_lift
    rintro g u - ⟨hg, j, rfl⟩
    exact ⟨hg, .next i j hfilled⟩
  | binary i op p q ihp ihq =>
    refine (ihp h hb).option_bind ?_
    rintro f t ht hkeep ⟨hf, hfilledp⟩
    -- the bindings still stand for known formulas once the left side is built
    refine (ihq ht (hb.subset hkeep)).option_bind ?_
    rintro g u hu hkeep' ⟨hg, hfilledq⟩
    refine ((Build.binary_leads hu op (hkeep' f hf) hg).mono ?_).option_lift
    rintro k w - ⟨hk, made⟩
    exact ⟨hk, .binary i hfilledp hfilledq made⟩

/-! ## §3. Meaning -/

variable {b : Bindings α} {v : Nat → α → Prop} {u : Nat → String → Prop}
  {p : Formula String} {f : Formula α}

/-- A placeholder is true where the formula bound to it is. -/
def Gives (b : Bindings α) (v : Nat → α → Prop) (u : Nat → String → Prop) : Prop :=
  ∀ name f, b.lookup name = some f → ∀ i, u i name ↔ f.Holds v i

/-- A matched formula means what its pattern does, with the placeholders meaning what they are
    bound to. -/
theorem Matches.holds (h : Matches b p f) (hgives : Gives b v u) (i : Nat) :
    f.Holds v i ↔ p.Holds u i := by
  induction h generalizing i with
  | prop h => exact (hgives _ _ h i).symm
  | tt | ff => exact Iff.rfl
  | negProp _ _ h => exact (not_congr (hgives _ _ h i)).symm
  | next _ _ _ ih => exact ih (i + 1)
  | straight _ _ op _ _ ihp ihq => exact op.holds_congr ihp ihq
  | @crossed _ _ op hop _ _ _ _ _ _ ihq ihp =>
    -- crosswise only where the operator commutes
    cases op with
    | conj => exact (and_congr (ihq i) (ihp i)).trans And.comm
    | disj => exact (or_congr (ihq i) (ihp i)).trans Or.comm
    | strongUntil | release | weakUntil => cases hop

/-- So does a formula that fills a pattern. -/
theorem Filled.holds (h : Filled b p f) (hgives : Gives b v u) (i : Nat) :
    f.Holds v i ↔ p.Holds u i := by
  induction h generalizing i with
  | prop h => exact (hgives _ _ h i).symm
  | tt | ff => exact Iff.rfl
  | negProp h neg =>
    rw [neg.holds]
    exact (not_congr (hgives _ _ h i)).symm
  | next _ _ _ ih => exact ih (i + 1)
  | binary _ _ _ made ihp ihq => exact (made.holds v i).trans (BinaryOp.holds_congr _ ihp ihq)

end Bindings
end LinearTime
