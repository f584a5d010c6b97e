/-
  LinearTime.Proofs.RandomFormulas — random formulas keep within bounds.

  What is drawn is an operator tree of some length, and what is built from it is
  shaped otherwise: negation is pushed inwards, a release may be represented as a
  weak until, and the negation of a weak until has one operand twice.  So neither
  is the size the length, nor does an operator of the tree add one to it.

  The mass of a formula does not see any of this.  It counts a negated proposition
  like a proposition and a weak until like the release that it abbreviates, and so
  negation keeps it, while every other operator that is drawn adds one:

      size f  ≤  2 * mass f          mass f  ≤  length

  What is asked of the source while drawing is found by noting it.  Noting changes
  nothing else, and the questions are counted along the recursion: the operands of
  an operator share what the length leaves to them.

  Main results:
    * `Formula.Drawn` — the formulas that can come of drawing, by length, with
      their propositions and sizes.
    * `formula_draws` — drawing gives one of these, in every session.
    * `formula_asks` — which questions are asked, and how many.
    * `random_formula_bounded` — both together, whatever the source answers.
    * `random_formulas_bounded` — formulas that are drawn one after the other.
-/

import LinearTime.Random.Formula
import LinearTime.Proofs.Marks
import LinearTime.Proofs.Placeholders
import LinearTime.Proofs.Settling

namespace LinearTime

/-! ## §1. What can be drawn -/

namespace Formula

variable {α : Type}

/-- What is made of an operator has the atoms of its operands. -/
theorem Made.mem_atoms {op : BinaryOp} {l r g : Formula α} (h : Made op l r g) {a : α}
    (ha : a ∈ g.atoms) : a ∈ l.atoms ∨ a ∈ r.atoms := by
  cases h with
  | plain id => exact List.mem_append.1 ha
  | swapped id => exact (List.mem_append.1 ha).symm
  | weak id k y =>
    have hmem : a ∈ y.atoms ∨ a ∈ l.atoms := List.mem_append.1 ha
    exact .inr (List.mem_append.2 hmem)
  | weakSwapped id k y =>
    have hmem : a ∈ y.atoms ∨ a ∈ l.atoms := List.mem_append.1 ha
    exact .inr (List.mem_append.2 hmem.symm)

/-- The negation of a formula has no atoms that the formula has not. -/
theorem Negates.mem_atoms {f g : Formula α} (h : Negates f g) {a : α} (ha : a ∈ g.atoms) :
    a ∈ f.atoms := by
  induction h with
  | tt | ff | prop | negProp => exact ha
  | next i j _ ih => exact ih ha
  | dual i hop _ _ made ihl ihr =>
    have hmem := (made.mem_atoms ha).imp ihl ihr
    exact List.mem_append.2 hmem
  | weak i _ _ both made ihl ihr =>
    -- the right operand turns up twice, the left one in the conjunction only
    have hboth := fun hc => (both.mem_atoms hc).imp ihl ihr
    have hmem := (made.mem_atoms ha).elim (fun hr => .inr (ihr hr)) hboth
    exact List.mem_append.2 hmem

/-- Only propositions that are negated count twice, and operators not at all. -/
theorem size_le_mass (f : Formula α) : f.size ≤ 2 * f.mass := by
  unfold mass
  induction f with
  | tt | ff | prop | negProp => simp [size, weight]
  | next i f ih =>
    simp only [size, weight]
    omega
  | binary i op l r ihl ihr =>
    cases op <;> simp only [size, weight, BinaryOp.weight] <;> omega

/-- The formulas that can come of drawing: of length one a proposition, and otherwise
    what an operator makes of operands that share the rest of the length. -/
inductive Drawn (names : Nat) : Nat → Formula String → Prop
  | prop (id : Nat) {i : Nat} (h : i < names) : Drawn names 1 (.prop id (Random.propositionName i))
  | not {n : Nat} {f g : Formula String} (h : Drawn names n f) (neg : Negates f g) :
    Drawn names (n + 1) g
  | next (id : Nat) {n : Nat} {f : Formula String} (h : Drawn names n f) :
    Drawn names (n + 1) (.next id f)
  | binary {op : BinaryOp} (hop : op ≠ .weakUntil) {m n : Nat} {l r g : Formula String}
    (hl : Drawn names m l) (hr : Drawn names n r) (made : Made op l r g) :
    Drawn names (m + n + 1) g

namespace Drawn

variable {names n : Nat} {f : Formula String}

/-- A formula that can be drawn names only the given propositions. -/
theorem named (h : Drawn names n f) {a : String} (ha : a ∈ f.atoms) :
    ∃ i < names, a = Random.propositionName i := by
  induction h with
  | @prop id i hi => exact ⟨i, hi, List.mem_singleton.1 ha⟩
  | not _ neg ih => exact ih (neg.mem_atoms ha)
  | next id _ ih => exact ih ha
  | binary _ _ _ made ihl ihr => exact (made.mem_atoms ha).elim ihl ihr

/-- Negation keeps the mass, so that it may be drawn at every place. -/
theorem mass_le (h : Drawn names n f) : f.mass ≤ n := by
  induction h with
  | prop id hi => exact le_refl 1
  | @not n f g _ neg ih =>
    have hkept : g.mass = f.mass := neg.weight fun _ => 1
    omega
  | next id _ ih => exact Nat.succ_le_succ ih
  | @binary op hop m n l r g _ _ made ihl ihr =>
    -- a weak until is not drawn, as its weight would add more than one
    have hmade : g.mass = op.weight l.mass r.mass := made.weight fun _ => 1
    have hweight : op.weight l.mass r.mass = l.mass + r.mass + 1 := by
      cases op with
      | conj | disj | strongUntil | release => rfl
      | weakUntil => exact absurd rfl hop
    omega

/-- A formula that can be drawn is at most twice as long as was asked for. -/
theorem size_le (h : Drawn names n f) : f.size ≤ 2 * n := by
  have hsize := f.size_le_mass
  have hmass := h.mass_le
  omega

end Drawn
end Formula

namespace Random

variable {σ : Type} {s : Session String} {forgotten : List (Formula String)}

/-! ## §2. Drawing in a session -/

/-- Whatever state the source is in, the drawing only adds formulas, and its result is
    as told. -/
def Draws {β : Type} (forgotten : List (Formula String)) (job : Drawing σ β)
    (s : Session String) (P : β → Session String → Prop) : Prop :=
  ∀ state : σ, Build.Leads (Session.Numbered forgotten) (job state) s fun p t => P p.1 t

/-- The drawing gives a formula that exists and that can come of drawing. -/
abbrev DrawsFormula (forgotten : List (Formula String)) (job : Drawing σ (Formula String))
    (s : Session String) (names length : Nat) : Prop :=
  Draws forgotten job s fun f t => f ∈ t.interned ++ forgotten ∧ f.Drawn names length

namespace Draws

variable {β γ : Type} {P : β → Session String → Prop} {Q : γ → Session String → Prop}

theorem pure (h : s.Numbered forgotten) {b : β} (hb : P b s) :
    Draws (σ := σ) forgotten (Pure.pure b) s P :=
  fun _ => Build.Leads.pure h hb

/-- Building a formula is drawing without a question. -/
theorem lift {job : Build String β} (h : Build.Leads (Session.Numbered forgotten) job s P) :
    Draws (σ := σ) forgotten (liftM job) s P := by
  intro state
  show Build.Leads (Session.Numbered forgotten) (job >>= fun b => Pure.pure (b, state)) s _
  refine h.bind ?_
  intro b t ht _ hb
  exact .pure ht hb

/-- A question adds nothing, and anything may be answered. -/
theorem ask {question : StateM σ β} {next : β → Drawing σ γ}
    (h : ∀ b, Draws forgotten (next b) s Q) : Draws forgotten (draw question >>= next) s Q := by
  intro state
  exact h (question state).1 (question state).2

/-- The rule for sequences of drawings, for every state the source may be in. -/
theorem bind {job : Drawing σ β} {next : β → Drawing σ γ} (h : Draws forgotten job s P)
    (hnext : ∀ b t, t.Numbered forgotten →
      (∀ f ∈ s.interned ++ forgotten, f ∈ t.interned ++ forgotten) → P b t →
      Draws forgotten (next b) t Q) : Draws forgotten (job >>= next) s Q := by
  intro state
  show Build.Leads (Session.Numbered forgotten) (job state >>= fun p => next p.1 p.2) s _
  refine (h state).bind ?_
  intro p t ht hkeep hp
  exact hnext p.1 t ht hkeep hp p.2

end Draws

variable (source : Source σ) {names : Nat}

/-- A coin decides between two jobs. -/
theorem coin_draws {β : Type} {P : β → Session String → Prop} {job job' : Build String β}
    (h : Build.Leads (Session.Numbered forgotten) job s P)
    (h' : Build.Leads (Session.Numbered forgotten) job' s P) :
    Draws forgotten (do if ← draw source.coin then liftM job else liftM job') s P := by
  refine .ask fun heads => ?_
  cases heads with
  | true => exact .lift h
  | false => exact .lift h'

/-- A negation or a next of a formula that can be drawn can be drawn. -/
theorem unary_draws (hs : s.Numbered forgotten) {f : Formula String}
    (hf : f ∈ s.interned ++ forgotten) {n : Nat} (hn : f.Drawn names n) :
    DrawsFormula forgotten (unary source f) s names (n + 1) := by
  refine coin_draws source ?_ ?_
  · refine (Build.not_leads hs hf).mono ?_
    intro g t _ hg
    exact ⟨hg.1, .not hn hg.2⟩
  · refine (Build.next_leads hs hf).mono ?_
    rintro g t - ⟨hg, i, rfl⟩
    exact ⟨hg, .next i hn⟩

/-- Drawing gives a formula of the length that is asked for. -/
theorem formula_draws (hnames : 0 < names) (p : Float) {length : Nat} (hlength : 0 < length)
    (hs : s.Numbered forgotten) :
    DrawsFormula forgotten (formula source names hnames p length) s names length := by
  -- for all sessions, as the right operand is drawn in the one that the left one leaves
  induction length using formula.induct generalizing s with
  | case1 => exact absurd hlength (Nat.lt_irrefl 0)
  | case2 =>
    rw [formula.eq_2]
    refine .ask fun i => .lift ((Build.prop_leads hs _).mono ?_)
    rintro f t - ⟨hf, id, a, rfl, ha⟩
    obtain rfl : a = _ := ha.elim (fun heq => heq) eq_of_beq
    exact ⟨hf, .prop id i.isLt⟩
  | case3 ih =>
    rw [formula.eq_3]
    refine (ih Nat.one_pos hs).bind ?_
    intro f t ht _ hf
    exact unary_draws source ht hf.1 hf.2
  | case4 rest ihl ihr ihsub =>
    rw [formula.eq_4]
    refine .ask fun share => ?_
    -- both operands, whatever operator they are for
    have hoperands (op op' : BinaryOp) (hop : op ≠ .weakUntil) (hop' : op' ≠ .weakUntil) :
        DrawsFormula forgotten (do
          let l ← formula source names hnames p (share + 1)
          let r ← formula source names hnames p (rest + 1 - share)
          if ← draw source.coin then liftM (Build.binary op l r)
          else liftM (Build.binary op' l r)) s names (rest + 3) := by
      have hlt := share.isLt
      have hsplit : share + 1 + (rest + 1 - share) + 1 = rest + 3 := by omega
      rw [← hsplit]
      refine (ihl share (Nat.succ_pos share) hs).bind ?_
      intro l t ht _ hl
      refine (ihr share (by omega) ht).bind ?_
      intro r u hu hkeep hr
      have hbinary {op : BinaryOp} (hop : op ≠ .weakUntil) :
          Build.Makes (Session.Numbered forgotten) (Build.binary op l r) u
            (Formula.Drawn names (share + 1 + (rest + 1 - share) + 1)) := by
        refine (Build.binary_leads hu op (hkeep l hl.1) hr.1).mono ?_
        intro g v _ hg
        exact ⟨hg.1, .binary hop hl.2 hr.2 hg.2⟩
      exact coin_draws source (hbinary hop) (hbinary hop')
    refine .ask fun temporal => ?_
    cases temporal with
    | true => exact hoperands .strongUntil .release (by decide) (by decide)
    | false =>
      refine .ask fun single => ?_
      cases single with
      | true =>
        refine (ihsub (by omega) hs).bind ?_
        intro f t ht _ hf
        exact unary_draws source ht hf.1 hf.2
      | false => exact hoperands .conj .disj (by decide) (by decide)

/-! ## §3. What is asked while drawing -/

/-- What a source can be asked. -/
inductive Question where
  | below (n : Nat)
  | coin
  | event (p : Float)

/-- The same answer, with the question put in front of those that were noted. -/
def noting {β : Type} (q : Question) (question : StateM σ β) : StateM (σ × List Question) β :=
  fun state =>
    let answer := question state.1
    (answer.1, answer.2, q :: state.2)

/-- The source, with all that it is asked noted, the latest question first. -/
def Source.noted (source : Source σ) : Source (σ × List Question) where
  below n h := noting (.below n) (source.below n h)
  coin := noting .coin source.coin
  event p := noting (.event p) (source.event p)

/-- With questions noted, the drawing gives what it gives otherwise.  It asks at most `n`
    questions, and they are as told. -/
def Asks {β : Type} (job : Drawing σ β) (notedJob : Drawing (σ × List Question) β) (n : Nat)
    (P : Question → Prop) : Prop :=
  ∀ (state : σ) (before : List Question) (s : Session String), ∃ asked : List Question,
    notedJob (state, before) s
        = (((job state s).1.1, (job state s).1.2, asked ++ before), (job state s).2)
      ∧ asked.length ≤ n ∧ ∀ q ∈ asked, P q

namespace Asks

variable {β γ : Type} {P : Question → Prop} {m n : Nat}

/-- A bound on the questions may be raised. -/
theorem le {job : Drawing σ β} {notedJob : Drawing (σ × List Question) β}
    (h : Asks job notedJob m P) (hle : m ≤ n) : Asks job notedJob n P := by
  intro state before s
  obtain ⟨asked, hrun, hlength, hP⟩ := h state before s
  exact ⟨asked, hrun, le_trans hlength hle, hP⟩

/-- Building asks nothing. -/
theorem lift (job : Build String β) : Asks (σ := σ) (liftM job) (liftM job) 0 P := by
  intro state before s
  exact ⟨[], rfl, le_refl 0, nofun⟩

theorem ask {q : Question} (hq : P q) (question : StateM σ β) :
    Asks (draw question) (draw (noting q question)) 1 P := by
  intro state before s
  exact ⟨[q], rfl, le_refl 1, fun q' hq' => (List.mem_singleton.1 hq').symm ▸ hq⟩

/-- What is asked later stands in front. -/
theorem bind {job : Drawing σ β} {notedJob : Drawing (σ × List Question) β}
    {next : β → Drawing σ γ} {notedNext : β → Drawing (σ × List Question) γ}
    (h : Asks job notedJob m P) (hnext : ∀ b, Asks (next b) (notedNext b) n P) :
    Asks (job >>= next) (notedJob >>= notedNext) (m + n) P := by
  intro state before s
  obtain ⟨first, hfirst, hm, hP⟩ := h state before s
  obtain ⟨later, hlater, hn, hP'⟩ :=
    hnext (job state s).1.1 (job state s).1.2 (first ++ before) (job state s).2
  refine ⟨later ++ first, ?_, ?_, ?_⟩
  · show notedNext (notedJob (state, before) s).1.1 (notedJob (state, before) s).1.2
        (notedJob (state, before) s).2 = _
    rw [hfirst, List.append_assoc]
    exact hlater
  · rw [List.length_append]
    omega
  · intro q hq
    exact (List.mem_append.1 hq).elim (hP' q) (hP q)

theorem ite {b : Bool} {job job' : Drawing σ β}
    {notedJob notedJob' : Drawing (σ × List Question) β}
    (h : Asks job notedJob n P) (h' : Asks job' notedJob' n P) :
    Asks (if b then job else job') (if b then notedJob else notedJob') n P := by
  cases b with
  | true => exact h
  | false => exact h'

end Asks

/-- Numbers are asked for below the number of propositions, or below a number that leaves
    two of the length. -/
def Question.Fits (names length : Nat) : Question → Prop
  | .below n => 0 < n ∧ (n = names ∨ n + 2 ≤ length)
  | .coin | .event _ => True

/-- The toss of a coin between two jobs is one question. -/
theorem coin_asks {β : Type} (job job' : Build String β) (limit : Nat) :
    Asks (do if ← draw source.coin then liftM job else liftM job')
      (do if ← draw source.noted.coin then liftM job else liftM job') 1
      (Question.Fits names limit) := by
  have hfits : Question.Fits names limit .coin := trivial
  have hcoin := Asks.ask hfits source.coin
  exact hcoin.bind fun heads => .ite (.lift job) (.lift job')

/-- Choosing the operator in front of a formula takes one question. -/
theorem unary_asks (f : Formula String) (limit : Nat) :
    Asks (unary source f) (unary source.noted f) 1 (Question.Fits names limit) :=
  coin_asks source (Build.not f) (Build.next f) limit

/-- The questions that are asked for a formula.  Those for its operands fit the length of
    the whole formula as well. -/
theorem formula_asks (hnames : 0 < names) (p : Float) {length limit : Nat}
    (hlength : 0 < length) (hlimit : length ≤ limit) :
    Asks (formula source names hnames p length) (formula source.noted names hnames p length)
      (4 * length - 3) (Question.Fits names limit) := by
  induction length using formula.induct with
  | case1 => exact absurd hlength (Nat.lt_irrefl 0)
  | case2 =>
    rw [formula.eq_2, formula.eq_2]
    have hfits : Question.Fits names limit (.below names) := ⟨hnames, .inl rfl⟩
    exact Asks.bind (.ask hfits (source.below names hnames)) fun i => .lift _
  | case3 ih =>
    rw [formula.eq_3, formula.eq_3]
    have hsub := ih Nat.one_pos (by omega)
    exact (hsub.bind fun f => unary_asks source f limit).le (by omega)
  | case4 rest ihl ihr ihsub =>
    rw [formula.eq_4, formula.eq_4]
    have hoperands (share : Fin (rest + 1))
        {job job' : Formula String → Formula String → Build String (Formula String)} :
        Asks
          (do
            let l ← formula source names hnames p (share + 1)
            let r ← formula source names hnames p (rest + 1 - share)
            if ← draw source.coin then liftM (job l r) else liftM (job' l r))
          (do
            let l ← formula source.noted names hnames p (share + 1)
            let r ← formula source.noted names hnames p (rest + 1 - share)
            if ← draw source.noted.coin then liftM (job l r) else liftM (job' l r))
          (4 * rest + 3) (Question.Fits names limit) := by
      have hlt := share.isLt
      have hl := ihl share (by omega) (by omega)
      have hr := ihr share (by omega) (by omega)
      have hcoin (l r : Formula String) : Asks _ _ 1 (Question.Fits names limit) :=
        coin_asks source (job l r) (job' l r) limit
      exact (hl.bind fun l => hr.bind fun r => hcoin l r).le (by omega)
    have hunary := (ihsub (by omega) (by omega)).bind fun f => unary_asks source f limit
    -- the share, what is drawn at all, and then a coin: the rest is for the operands
    have hfits : Question.Fits names limit (.below (rest + 1)) :=
      ⟨Nat.succ_pos rest, .inr (by omega)⟩
    refine Asks.le (m := 1 + (1 + (1 + (4 * rest + 6)))) ?_ (by omega)
    refine Asks.bind (.ask hfits _) fun share => ?_
    refine Asks.bind (.ask trivial (source.event p)) fun temporal => ?_
    refine .ite ((hoperands share).le (by omega)) ?_
    refine Asks.bind (.ask trivial source.coin) fun single => ?_
    exact .ite (hunary.le (by omega)) ((hoperands share).le (by omega))

/-! ## §4. Random formulas -/

/-- The source that gives the answers on a list, one after the other: numbers as
    remainders, and `1` for heads and for an event that takes place. -/
def Source.listed : Source (List Nat) where
  below n h := fun answers => (⟨answers.headD 0 % n, Nat.mod_lt _ h⟩, answers.tail)
  coin := fun answers => (answers.headD 0 == 1, answers.tail)
  event _ := fun answers => (answers.headD 0 == 1, answers.tail)

/-- Random formulas keep within bounds.  Let the source be in any state and give any
    answers that lie in the range that is asked for, and let the session have come about
    by whatever calls, simplifications and resets.  Then drawing a formula of positive
    length over a positive number of propositions is done after at most `4 * length - 3`
    questions, none of which asks for a number in an empty range.  The formula has no
    propositions but `p0`, `p1`, ... up to their number, and at most twice the length as
    its size. -/
theorem random_formula_bounded {events : List (Workspace.Event String)} {w : Workspace String}
    (h : Workspace.Run {} events w) (state : σ) {length : Nat} (hlength : 0 < length)
    (hnames : 0 < names) (p : Float) :
    let drawn := formula source names hnames p length state w.session
    (∃ asked : List Question,
        formula source.noted names hnames p length (state, []) w.session
            = ((drawn.1.1, drawn.1.2, asked), drawn.2)
          ∧ asked.length ≤ 4 * length - 3
          ∧ ∀ n, .below n ∈ asked → 0 < n ∧ (n = names ∨ n + 2 ≤ length))
      ∧ (∀ a ∈ drawn.1.1.atoms, ∃ i < names, a = propositionName i)
      ∧ drawn.1.1.size ≤ 2 * length := by
  intro drawn
  have hnumbered : w.session.Numbered w.forgotten := h.sound.numbered
  have hdrawn : drawn.1.1.Drawn names length :=
    (formula_draws source hnames p hlength hnumbered state).result.2
  have hasks := formula_asks source hnames p hlength (le_refl length)
  obtain ⟨asked, hrun, hcount, hfits⟩ := hasks state [] w.session
  rw [List.append_nil] at hrun
  refine ⟨⟨asked, hrun, hcount, ?_⟩, ?_, hdrawn.size_le⟩
  · intro n hn
    exact hfits (.below n) hn
  · intro a ha
    exact hdrawn.named ha

/-- The negation of `p1 V (p0 \/ p1)`, of length six: the release is represented as
    `p0 W p1`, and its negation has `! p1` twice. -/
theorem random_formula_bounded_weakUntil :
    let answers := [0, 0, 1, 0, 1, 1, 0, 0, 0, 0, 1, 0, 0, 1]
    let drawn := formula Source.listed 2 (by decide) 0.5 6 answers ({} : Session String)
    drawn.1.1.text = "( ( ! p1 ) U ( ( ! p0 ) /\\ ( ! p1 ) ) )" ∧ drawn.1.1.size = 8
      ∧ (∃ asked : List Question,
        formula Source.listed.noted 2 (by decide) 0.5 6 (answers, []) ({} : Session String)
            = ((drawn.1.1, drawn.1.2, asked), drawn.2)
          ∧ asked.length ≤ 21
          ∧ ∀ n, .below n ∈ asked → 0 < n ∧ (n = 2 ∨ n + 2 ≤ 6))
      ∧ (∀ a ∈ drawn.1.1.atoms, ∃ i < 2, a = propositionName i)
      ∧ drawn.1.1.size ≤ 2 * 6 := by
  intro answers drawn
  have hsix : 0 < 6 := by decide
  have htwo : 0 < 2 := by decide
  have htext : drawn.1.1.text = "( ( ! p1 ) U ( ( ! p0 ) /\\ ( ! p1 ) ) )" := by
    decide +kernel
  have hsize : drawn.1.1.size = 8 := by
    decide +kernel
  have hbounded := random_formula_bounded Source.listed .start answers hsix htwo 0.5
  exact ⟨htext, hsize, hbounded⟩

/-- A drawing that is done some number of times gives as many results. -/
theorem times_draws {β : Type} {R : β → Prop} {job : Drawing σ β}
    (hjob : ∀ t : Session String, t.Numbered forgotten → Draws forgotten job t fun b _ => R b)
    (count : Nat) (hs : s.Numbered forgotten) :
    Draws forgotten ((List.replicate count ()).mapM fun _ => job) s fun bs _ =>
      bs.length = count ∧ ∀ b ∈ bs, R b := by
  induction count generalizing s with
  | zero => exact .pure hs ⟨rfl, nofun⟩
  | succ count ih =>
    rw [List.replicate_succ, List.mapM_cons]
    refine (hjob s hs).bind ?_
    intro b t ht _ hb
    refine (ih ht).bind ?_
    intro bs u hu _ hbs
    have hlength : (b :: bs).length = count + 1 := congrArg (· + 1) hbs.1
    exact .pure hu ⟨hlength, List.forall_mem_cons.2 ⟨hb, hbs.2⟩⟩

/-- All formulas that are drawn one after the other keep within the bounds, those that
    are drawn later in the session that the earlier ones were built in. -/
theorem random_formulas_bounded {events : List (Workspace.Event String)} {w : Workspace String}
    (h : Workspace.Run {} events w) (state : σ) {length count : Nat} {p : Float}
    {job : Drawing σ (List (Formula String))}
    (hjob : formulas source length names p count = .ok job) :
    let drawn := (job state w.session).1.1
    drawn.length = count
      ∧ ∀ f ∈ drawn, (∀ a ∈ f.atoms, ∃ i < names, a = propositionName i)
          ∧ f.size ≤ 2 * length := by
  intro drawn
  have hnumbered : w.session.Numbered w.forgotten := h.sound.numbered
  -- without complaints, length and number of propositions are positive
  unfold formulas at hjob
  split at hjob
  next => cases hjob
  next hlength =>
    split at hjob
    next hnames =>
      split at hjob
      next =>
        obtain rfl := Except.ok.inj hjob
        have hpos : 0 < length := Nat.pos_of_ne_zero hlength
        have hall := times_draws (R := Formula.Drawn names length) (fun t ht state =>
          (formula_draws source hnames p hpos ht state).mono fun _ _ _ hf => hf.2) count hnumbered
        obtain ⟨hcount, hdrawn⟩ := (hall state).result
        refine ⟨hcount, ?_⟩
        intro f hf
        exact ⟨fun a ha => (hdrawn f hf).named ha, (hdrawn f hf).size_le⟩
      next => cases hjob
    next => cases hjob

end Random
end LinearTime
