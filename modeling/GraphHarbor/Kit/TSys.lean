import Mathlib.Data.List.Basic

/-!
# Labelled transition systems

Runs are finite label lists. A property of all reachable states is proved by
`Inductive.invariant`, a property of a run together with its labels by
`TraceInductive.holds`. `restrict` keeps only the steps that meet a side condition, so
"every run whose steps all meet `C`" is a run of `T.restrict C`.
-/

namespace Kit

universe u v

/-- A labelled transition system. -/
structure TSys (σ : Type u) (ι : Type v) where
  init : σ → Prop
  step : σ → ι → σ → Prop

namespace TSys

variable {σ : Type u} {ι : Type v} {T : TSys σ ι}

/-- `T.Steps s tr s'`: the labels `tr` lead from `s` to `s'`. -/
inductive Steps (T : TSys σ ι) (s : σ) : List ι → σ → Prop
  | nil : Steps T s [] s
  | snoc {tr l s' s''} : Steps T s tr s' → T.step s' l s'' → Steps T s (tr ++ [l]) s''

/-- `T.Exec tr s`: the labels `tr` lead from an initial state to `s`. -/
def Exec (T : TSys σ ι) (tr : List ι) (s : σ) : Prop :=
  ∃ s₀, T.init s₀ ∧ T.Steps s₀ tr s

def Reachable (T : TSys σ ι) (s : σ) : Prop := ∃ tr, T.Exec tr s

def Invariant (T : TSys σ ι) (P : σ → Prop) : Prop := ∀ s, T.Reachable s → P s

theorem Steps.trans {s s' s'' : σ} {tr tr' : List ι} (h : T.Steps s tr s')
    (h' : T.Steps s' tr' s'') : T.Steps s (tr ++ tr') s'' := by
  induction h' with
  | nil => simpa using h
  | snoc _ hstep ih =>
      rw [← List.append_assoc]
      exact .snoc ih hstep

theorem Steps.cons {s s' s'' : σ} {l : ι} {tr : List ι} (hstep : T.step s l s')
    (h : T.Steps s' tr s'') : T.Steps s (l :: tr) s'' :=
  Steps.trans (show T.Steps s [l] s' from .snoc .nil hstep) h

theorem Exec.append {s s' : σ} {tr tr' : List ι} (h : T.Exec tr s)
    (h' : T.Steps s tr' s') : T.Exec (tr ++ tr') s' := by
  obtain ⟨s₀, hinit, hsteps⟩ := h
  exact ⟨s₀, hinit, hsteps.trans h'⟩

theorem Reachable.append {s s' : σ} {tr : List ι} (h : T.Reachable s)
    (h' : T.Steps s tr s') : T.Reachable s' := by
  obtain ⟨tr₀, hexec⟩ := h
  exact ⟨tr₀ ++ tr, hexec.append h'⟩

/-- A property of every run: its labels and the state it leads to. -/
def TraceInvariant (T : TSys σ ι) (P : List ι → σ → Prop) : Prop :=
  ∀ tr s, T.Exec tr s → P tr s

/-- `P` holds initially and every step keeps it. -/
structure Inductive (T : TSys σ ι) (P : σ → Prop) : Prop where
  init : ∀ s, T.init s → P s
  step : ∀ s l s', P s → T.step s l s' → P s'

theorem Inductive.steps {P : σ → Prop} (hP : T.Inductive P) {s s' : σ} {tr : List ι}
    (hs : P s) (h : T.Steps s tr s') : P s' := by
  induction h with
  | nil => exact hs
  | snoc _ hstep ih => exact hP.step _ _ _ ih hstep

theorem Inductive.invariant {P : σ → Prop} (hP : T.Inductive P) : T.Invariant P := by
  rintro s ⟨tr, s₀, hinit, hsteps⟩
  exact hP.steps (hP.init s₀ hinit) hsteps

theorem Inductive.and {P Q : σ → Prop} (hP : T.Inductive P) (hQ : T.Inductive Q) :
    T.Inductive fun s => P s ∧ Q s where
  init s hs := ⟨hP.init s hs, hQ.init s hs⟩
  step s l s' hs hstep := ⟨hP.step s l s' hs.1 hstep, hQ.step s l s' hs.2 hstep⟩

/-- A property of the labels seen so far and the state they lead to. -/
structure TraceInductive (T : TSys σ ι) (P : List ι → σ → Prop) : Prop where
  init : ∀ s, T.init s → P [] s
  step : ∀ tr s l s', P tr s → T.step s l s' → P (tr ++ [l]) s'

theorem TraceInductive.holds {P : List ι → σ → Prop} (hP : T.TraceInductive P)
    {tr : List ι} {s : σ} (h : T.Exec tr s) : P tr s := by
  obtain ⟨s₀, hinit, hsteps⟩ := h
  induction hsteps with
  | nil => exact hP.init _ hinit
  | snoc _ hstep ih => exact hP.step _ _ _ _ ih hstep

/-! ## Scripts -/

/-- The states a list of inputs leads through, one `next` after the other. -/
def play {κ : Type*} (next : σ → κ → Option σ) : σ → List κ → Option σ
  | s, [] => some s
  | s, i :: inputs => (next s i).bind fun s' => play next s' inputs

theorem play_steps {κ : Type*} {next : σ → κ → Option σ}
    (hnext : ∀ s i s', next s i = some s' → ∃ l, T.step s l s') {s s' : σ} {inputs : List κ}
    (h : play next s inputs = some s') : ∃ tr, T.Steps s tr s' := by
  induction inputs generalizing s with
  | nil =>
      obtain rfl := Option.some.inj h
      exact ⟨[], .nil⟩
  | cons i inputs ih =>
      obtain ⟨s₁, hs₁, hrest⟩ := Option.bind_eq_some_iff.1 h
      obtain ⟨l, hl⟩ := hnext s i s₁ hs₁
      obtain ⟨tr, hsteps⟩ := ih hrest
      exact ⟨l :: tr, .cons hl hsteps⟩

/-- A check of the state that a script reaches from an initial state. -/
theorem play_reachable {κ : Type*} {next : σ → κ → Option σ} {s : σ} {inputs : List κ}
    {p : σ → Bool} (hnext : ∀ s i s', next s i = some s' → ∃ l, T.step s l s') (hs : T.init s)
    (h : (play next s inputs).any p = true) : ∃ s', T.Reachable s' ∧ p s' = true := by
  cases hplay : play next s inputs with
  | none => simp [hplay] at h
  | some s' =>
      rw [hplay] at h
      obtain ⟨tr, hsteps⟩ := play_steps hnext hplay
      exact ⟨s', ⟨tr, s, hs, hsteps⟩, h⟩

/-- The last step of a script, and a check of it. -/
theorem play_last {κ : Type*} {next : σ → κ → Option (ι × σ)} {s : σ} (inputs : List κ) {i : κ}
    {p : σ → ι → σ → Bool} (hnext : ∀ s i l s', next s i = some (l, s') → T.step s l s')
    (hs : T.init s) (h : ((play (fun s i => (next s i).map Prod.snd) s inputs).any fun s₁ =>
      (next s₁ i).any fun r => p s₁ r.1 r.2) = true) :
    ∃ s₁ l s₂, T.Reachable s₁ ∧ T.step s₁ l s₂ ∧ p s₁ l s₂ = true := by
  have hsteps (s : σ) (i : κ) (s' : σ) (h : (next s i).map Prod.snd = some s') :
      ∃ l, T.step s l s' := by
    obtain ⟨⟨l, s₁⟩, hstep, rfl⟩ := Option.map_eq_some_iff.1 h
    exact ⟨l, hnext s i l s₁ hstep⟩
  obtain ⟨s₁, hreach, hlast⟩ := play_reachable hsteps hs h
  obtain ⟨⟨l, s₂⟩, hstep, hp⟩ := (Option.any_eq_true _ _).1 hlast
  exact ⟨s₁, l, s₂, hreach, hnext s₁ i l s₂ hstep, hp⟩

/-! ## Observers -/

/-- `T` next to an observer, which reads the state of `T` and changes only its own. -/
def observe {ρ κ : Type*} (T : TSys σ ι) (start : ρ → Prop) (look : σ → ρ → κ → ρ → Prop) :
    TSys (σ × ρ) (ι ⊕ κ) where
  init s := T.init s.1 ∧ start s.2
  step s l s' :=
    match l with
    | .inl i => T.step s.1 i s'.1 ∧ s'.2 = s.2
    | .inr k => s'.1 = s.1 ∧ look s.1 s.2 k s'.2

/-! ## Counting -/

/-- `T` with the number of its steps so far that satisfy `C`. -/
def counting (T : TSys σ ι) (C : σ → ι → σ → Prop) : TSys (σ × Nat) ι where
  init s := T.init s.1 ∧ s.2 = 0
  step s l s' := T.step s.1 l s'.1 ∧
    (C s.1 l s'.1 ∧ s'.2 = s.2 + 1 ∨ ¬ C s.1 l s'.1 ∧ s'.2 = s.2)

/-- A property `P` of the state and the count. `Q` is what the system keeps by itself. -/
theorem counting_inductive {C : σ → ι → σ → Prop} {Q : σ → Prop} {P : σ → Nat → Prop}
    (hQ : T.Inductive Q) (init : ∀ s, T.init s → P s 0)
    (counted : ∀ s l s' n, Q s → T.step s l s' → C s l s' → P s n → P s' (n + 1))
    (other : ∀ s l s' n, Q s → T.step s l s' → ¬ C s l s' → P s n → P s' n) :
    (T.counting C).Inductive fun s => Q s.1 ∧ P s.1 s.2 where
  init s hs := ⟨hQ.init s.1 hs.1, hs.2 ▸ init s.1 hs.1⟩
  step s l s' hs hstep := by
    obtain ⟨hstep, hcount⟩ := hstep
    refine ⟨hQ.step s.1 l s'.1 hs.1 hstep, ?_⟩
    rcases hcount with ⟨hC, hn⟩ | ⟨hC, hn⟩
    · rw [hn]
      exact counted s.1 l s'.1 s.2 hs.1 hstep hC hs.2
    · rw [hn]
      exact other s.1 l s'.1 s.2 hs.1 hstep hC hs.2

/-- `next` on states with a count. -/
def countNext {κ : Type*} (C : σ → ι → σ → Bool) (next : σ → κ → Option (ι × σ)) (s : σ × Nat)
    (i : κ) : Option (ι × (σ × Nat)) :=
  (next s.1 i).map fun r => (r.1, r.2, if C s.1 r.1 r.2 then s.2 + 1 else s.2)

theorem countNext_step {κ : Type*} {C : σ → ι → σ → Bool} {next : σ → κ → Option (ι × σ)}
    (hnext : ∀ s i l s', next s i = some (l, s') → T.step s l s') (s : σ × Nat) (i : κ) (l : ι)
    (s' : σ × Nat) (h : countNext C next s i = some (l, s')) :
    (T.counting fun s l s' => C s l s' = true).step s l s' := by
  obtain ⟨⟨l₁, s₁⟩, hstep, heq⟩ := Option.map_eq_some_iff.1 h
  obtain ⟨rfl, rfl⟩ := Prod.mk.inj heq
  refine ⟨hnext s.1 i l₁ s₁ hstep, ?_⟩
  by_cases hC : C s.1 l₁ s₁ = true
  · exact .inl ⟨hC, if_pos hC⟩
  · exact .inr ⟨hC, if_neg hC⟩

/-! ## Conditional runs -/

/-- The system whose steps all meet `C`, a condition on the state before the step. -/
def restrict (T : TSys σ ι) (C : σ → ι → Prop) : TSys σ ι where
  init := T.init
  step s l s' := T.step s l s' ∧ C s l

theorem Steps.of_restrict {C : σ → ι → Prop} {s s' : σ} {tr : List ι}
    (h : (T.restrict C).Steps s tr s') : T.Steps s tr s' := by
  induction h with
  | nil => exact .nil
  | snoc _ hstep ih => exact .snoc ih hstep.1

theorem Reachable.of_restrict {C : σ → ι → Prop} {s : σ}
    (h : (T.restrict C).Reachable s) : T.Reachable s := by
  obtain ⟨tr, s₀, hinit, hsteps⟩ := h
  exact ⟨tr, s₀, hinit, hsteps.of_restrict⟩

/-- A property `P` of what an observer sees, when the looks and the steps of the system it
observes keep it as far as they meet `C`. `Q` is what the system keeps by itself. -/
theorem observe_inductive {ρ κ : Type*} {start : ρ → Prop} {look : σ → ρ → κ → ρ → Prop}
    {C : σ × ρ → ι ⊕ κ → Prop} {Q : σ → Prop} {P : σ → ρ → Prop} (hQ : T.Inductive Q)
    (init : ∀ v s, T.init v → start s → P v s)
    (env : ∀ v i v' s, Q v → Q v' → C (v, s) (.inl i) → T.step v i v' → P v s → P v' s)
    (looks : ∀ v s k s', Q v → C (v, s) (.inr k) → look v s k s' → P v s → P v s') :
    ((T.observe start look).restrict C).Inductive fun s => Q s.1 ∧ P s.1 s.2 where
  init s hs := ⟨hQ.init s.1 hs.1, init s.1 s.2 hs.1 hs.2⟩
  step s l s' hs hstep := by
    obtain ⟨v, r⟩ := s
    obtain ⟨v', r'⟩ := s'
    obtain ⟨hstep, hC⟩ := hstep
    cases l with
    | inl i =>
        obtain ⟨hstep, rfl⟩ := hstep
        have hQ' := hQ.step v i v' hs.1 hstep
        exact ⟨hQ', env v i v' _ hs.1 hQ' hC hstep hs.2⟩
    | inr k =>
        obtain ⟨rfl, hlook⟩ := hstep
        exact ⟨hs.1, looks _ _ k _ hs.1 hC hlook hs.2⟩

/-! ## Simulation -/

variable {τ : Type*} {κ : Type*} {U : TSys τ κ} {abs : σ → τ} {seen : ι → Option κ} {P : σ → Prop}

/-- From a state with `P` a step of `T` that is `seen` is a step of `U`, and the other steps
change nothing that `abs` shows. -/
structure Simulation (T : TSys σ ι) (U : TSys τ κ) (abs : σ → τ) (seen : ι → Option κ)
    (P : σ → Prop) : Prop where
  init : ∀ s, T.init s → U.init (abs s)
  silent : ∀ s l s', P s → T.step s l s' → seen l = none → abs s' = abs s
  step : ∀ s l s' k, P s → T.step s l s' → seen l = some k → U.step (abs s) k (abs s')

/-- What is seen of a run of `T` is a run of `U`, from what `abs` shows of its start. -/
theorem Simulation.steps (h : T.Simulation U abs seen P) (hP : T.Inductive P) {s₀ s : σ}
    {tr : List ι} (hinit : T.init s₀) (hsteps : T.Steps s₀ tr s) :
    U.Steps (abs s₀) (tr.filterMap seen) (abs s) := by
  induction hsteps with
  | nil => exact .nil
  | @snoc tr l s₁ s₂ hsteps hstep ih =>
      have hs₁ : P s₁ := hP.steps (hP.init s₀ hinit) hsteps
      rw [List.filterMap_append]
      cases hseen : seen l with
      | none =>
          rw [h.silent s₁ l s₂ hs₁ hstep hseen]
          simpa [hseen] using ih
      | some k => simpa [hseen] using ih.snoc (h.step s₁ l s₂ k hs₁ hstep hseen)

end TSys

end Kit
