import GraphHarbor.Kit.TSys
import Mathlib.Tactic.ByContra

/-!
# Waking the worker slots

The slots of a process share one event and a generation counter. A slot whose claim fails
looks at the event, and otherwise waits for it with a timeout; both ways it clears the
event, which takes the signal away from a slot that is still at its own claim. A slot that
claimed a run comes back with a new attempt, and misses nothing.
-/

namespace GraphHarbor

open Kit

abbrev SlotId := Nat

/-- Where a slot is. `working` is a claim attempt, `executing` what follows one that claimed a
run, or that was given up for an exception. `entering` is the time between the call of
`wait_for` and the start of `Event.wait`, which is none from Python 3.12 on; `woken` is a waiter
whose future is done. -/
inductive SlotPhase
  | stopped | working | executing | entering | waiting | woken
  deriving DecidableEq, Repr

/-- A slot, with the generations at which its claim attempt began, its wait started, and its
last wait returned. -/
structure WakeSlot where
  phase : SlotPhase := .stopped
  began : Nat := 0
  start : Nat := 0
  returned : Nat := 0
  deriving DecidableEq, Repr

/-- `_WAKE_GEN`, `_WAKE_EVENT`, and the slots of `run_forever`. -/
structure Wakes where
  gen : Nat := 0
  event : Bool := false
  slots : SlotId → WakeSlot := fun _ => {}

inductive WakeStep
  /-- `_signal_local_wake`. -/
  | signal
  /-- A slot starts, or begins the next claim attempt of `run_once`. -/
  | attempt (i : SlotId)
  /-- The attempt claims a run, which `run_once` executes, or raises. -/
  | claim (i : SlotId)
  /-- `run_once` did no work, and `wait_for_queue_wake` is called. -/
  | fail (i : SlotId)
  /-- `Event.wait` starts. -/
  | enter (i : SlotId)
  /-- The waiter goes on after its future is done. -/
  | resume (i : SlotId)
  /-- The timeout of `wait_for` expires first. -/
  | timeout (i : SlotId)
  deriving DecidableEq, Repr

namespace Wakes

def update (s : Wakes) (i : SlotId) (f : WakeSlot → WakeSlot) : Wakes :=
  { s with slots := fun j => if j = i then f (s.slots j) else s.slots j }

/-- The event is cleared, and set again if the generation is not the one seen before. -/
def clear (s : Wakes) (seen : Nat) : Wakes := { s with event := decide (seen ≠ s.gen) }

/-- `wait_for_queue_wake` returns, and the next `run_once` begins. -/
def leave (s : Wakes) (i : SlotId) : Wakes :=
  s.update i fun slot => { slot with phase := .working, began := s.gen, returned := s.gen }

def next (s : Wakes) : WakeStep → Option Wakes
  | .signal =>
      some {
        gen := s.gen + 1
        event := true
        slots := fun j =>
          if (s.slots j).phase = .waiting then { s.slots j with phase := .woken } else s.slots j }
  | .attempt i =>
      if (s.slots i).phase = .stopped ∨ (s.slots i).phase = .executing then
        some (s.update i fun slot => { slot with phase := .working, began := s.gen })
      else none
  | .claim i =>
      if (s.slots i).phase = .working then
        some (s.update i fun slot => { slot with phase := .executing })
      else none
  | .fail i =>
      if (s.slots i).phase = .working then
        if s.event then some ((s.clear s.gen).leave i)
        else some (s.update i fun slot => { slot with phase := .entering, start := s.gen })
      else none
  | .enter i =>
      if (s.slots i).phase = .entering then
        some (s.update i fun slot => { slot with phase := if s.event then .woken else .waiting })
      else none
  | .resume i =>
      if (s.slots i).phase = .woken then some ((s.clear s.gen).leave i) else none
  | .timeout i =>
      if (s.slots i).phase = .entering ∨ (s.slots i).phase = .waiting ∨
          (s.slots i).phase = .woken then
        some (s.leave i)
      else none

/-- The slot whose wait returns `True` in the step. A timeout compares the generations. -/
def returnsTrue (s : Wakes) : WakeStep → Option SlotId
  | .fail i => if s.event then some i else none
  | .resume i => some i
  | .timeout i => if (s.slots i).start ≠ s.gen then some i else none
  | _ => none

/-- A signal was issued after the claim attempt of the slot began. -/
def Signalled (s : Wakes) (i : SlotId) : Prop := (s.slots i).began < s.gen

/-- The slot does not have to wait for its timeout: its wait is over, or finds the event. -/
def Ready (s : Wakes) (i : SlotId) : Prop :=
  (s.slots i).phase = .woken ∨ (s.slots i).phase ≠ .waiting ∧ s.event = true

/-- The slot is at a claim attempt, or waits after it failed. -/
def Attends (s : Wakes) (i : SlotId) : Prop :=
  (s.slots i).phase ≠ .stopped ∧ (s.slots i).phase ≠ .executing

/-- A step as it is promised: a signalled slot is ready and does not time out, and a wait
returns `True` only after a signal since the previous one returned. -/
structure KeepsWakes (s : Wakes) (l : WakeStep) : Prop where
  ready : ∀ i, s.Signalled i → s.Attends i → s.Ready i
  kept : ∀ i, l = .timeout i → ¬ s.Signalled i
  fresh : ∀ i, s.returnsTrue l = some i → (s.slots i).returned < s.gen

/-- No other slot is between the begin of its claim attempt and its wait while a signal has
been issued in between. -/
def Alone (s : Wakes) (i : SlotId) : Prop :=
  ∀ j, j ≠ i → (s.slots j).phase = .working ∨ (s.slots j).phase = .entering →
    (s.slots j).began = s.gen

/-- The event is not cleared under another slot, and no timeout expires after a signal. -/
def Undisturbed (s : Wakes) : WakeStep → Prop
  | .fail i => s.event = true → s.Alone i
  | .resume i => s.Alone i
  | .timeout i => (s.slots i).start = s.gen
  | _ => True

end Wakes

/-- The slots of a process, which switch only where they await. -/
def wakes : TSys Wakes WakeStep where
  init s := s = {}
  step s l s' := s.next l = some s'

namespace Wakes

variable {s s' : Wakes} {i j : SlotId} {l : WakeStep}

@[simp] theorem clear_gen (s : Wakes) : s.clear s.gen = { s with event := false } := by
  simp [clear]

theorem update_slots (s : Wakes) (i j : SlotId) (f : WakeSlot → WakeSlot) :
    (s.update i f).slots j = if j = i then f (s.slots j) else s.slots j := rfl

/-! ## What each step does -/

theorem next_fail (hphase : (s.slots i).phase = .working) (hevent : s.event = false) :
    s.next (.fail i) =
      some (s.update i fun slot => { slot with phase := .entering, start := s.gen }) :=
  (if_pos hphase).trans (if_neg (by rw [hevent]; exact Bool.false_ne_true))

theorem next_fail_set (hphase : (s.slots i).phase = .working) (hevent : s.event = true) :
    s.next (.fail i) = some ((s.clear s.gen).leave i) :=
  (if_pos hphase).trans (if_pos hevent)

theorem next_timeout (hphase : (s.slots i).phase = .entering ∨ (s.slots i).phase = .waiting ∨
    (s.slots i).phase = .woken) : s.next (.timeout i) = some (s.leave i) :=
  if_pos hphase

/-- The cases of a step, with the slots after it. -/
theorem next_cases (h : s.next l = some s') :
    (l = .signal ∧ s' = ⟨s.gen + 1, true, fun j =>
        if (s.slots j).phase = .waiting then { s.slots j with phase := .woken }
        else s.slots j⟩) ∨
    (∃ i, l = .attempt i ∧ ((s.slots i).phase = .stopped ∨ (s.slots i).phase = .executing) ∧
      s' = s.update i fun slot => { slot with phase := .working, began := s.gen }) ∨
    (∃ i, l = .claim i ∧ (s.slots i).phase = .working ∧
      s' = s.update i fun slot => { slot with phase := .executing }) ∨
    (∃ i, (l = .fail i ∧ (s.slots i).phase = .working ∧ s.event = true ∨
        l = .resume i ∧ (s.slots i).phase = .woken) ∧
      s' = ({ s with event := false } : Wakes).leave i) ∨
    (∃ i, l = .fail i ∧ (s.slots i).phase = .working ∧ s.event = false ∧
      s' = s.update i fun slot => { slot with phase := .entering, start := s.gen }) ∨
    (∃ i, l = .enter i ∧ (s.slots i).phase = .entering ∧
      s' = s.update i fun slot => { slot with phase := if s.event then .woken else .waiting }) ∨
    (∃ i, l = .timeout i ∧ ((s.slots i).phase = .entering ∨ (s.slots i).phase = .waiting ∨
        (s.slots i).phase = .woken) ∧ s' = s.leave i) := by
  cases l with
  | signal => exact .inl ⟨rfl, (Option.some.inj h).symm⟩
  | attempt i =>
      obtain ⟨hphase, heq⟩ := Option.ite_none_right_eq_some.1 h
      exact .inr (.inl ⟨i, rfl, hphase, (Option.some.inj heq).symm⟩)
  | claim i =>
      obtain ⟨hphase, heq⟩ := Option.ite_none_right_eq_some.1 h
      exact .inr (.inr (.inl ⟨i, rfl, hphase, (Option.some.inj heq).symm⟩))
  | fail i =>
      obtain ⟨hphase, heq⟩ := Option.ite_none_right_eq_some.1 h
      split at heq
      next hevent =>
        rw [clear_gen] at heq
        exact .inr (.inr (.inr (.inl ⟨i, .inl ⟨rfl, hphase, hevent⟩,
          (Option.some.inj heq).symm⟩)))
      next hevent =>
        exact .inr (.inr (.inr (.inr (.inl ⟨i, rfl, hphase, by simpa using hevent,
          (Option.some.inj heq).symm⟩))))
  | enter i =>
      obtain ⟨hphase, heq⟩ := Option.ite_none_right_eq_some.1 h
      exact .inr (.inr (.inr (.inr (.inr (.inl ⟨i, rfl, hphase,
        (Option.some.inj heq).symm⟩)))))
  | resume i =>
      obtain ⟨hphase, heq⟩ := Option.ite_none_right_eq_some.1 h
      rw [clear_gen] at heq
      exact .inr (.inr (.inr (.inl ⟨i, .inr ⟨rfl, hphase⟩, (Option.some.inj heq).symm⟩)))
  | timeout i =>
      obtain ⟨hphase, heq⟩ := Option.ite_none_right_eq_some.1 h
      exact .inr (.inr (.inr (.inr (.inr (.inr ⟨i, rfl, hphase,
        (Option.some.inj heq).symm⟩)))))

/-! ## The generations of a slot -/

/-- The marks of a slot, at the generation `gen`, in every run. -/
structure Marks (gen : Nat) (slot : WakeSlot) : Prop where
  returned : slot.returned ≤ slot.began
  began : slot.began ≤ gen
  start : slot.phase = .entering ∨ slot.phase = .waiting ∨ slot.phase = .woken →
    slot.began ≤ slot.start ∧ slot.start ≤ gen

/-- What holds of a slot in a run without disturbance. -/
structure Calm (gen : Nat) (event : Bool) (slot : WakeSlot) : Prop where
  marks : Marks gen slot
  /-- A slot that has been signalled will find the event or its future. -/
  working : slot.phase = .working → slot.began < gen → event = true
  entering : slot.phase = .entering → slot.began = slot.start ∧ (event = true ↔ slot.start < gen)
  waiting : slot.phase = .waiting → slot.began = gen ∧ slot.start = gen ∧ event = false
  woken : slot.phase = .woken → slot.start < gen
  /-- The event was set after the last wait of the slot returned. -/
  fresh : event = true → slot.returned < gen

/-- A slot whose wait is over is marked anew. -/
theorem Marks.left {gen : Nat} {slot : WakeSlot} :
    Marks gen { slot with phase := .working, began := gen, returned := gen } :=
  ⟨Nat.le_refl _, Nat.le_refl _, fun h => by simp at h⟩

theorem marks_inductive : wakes.Inductive fun s => ∀ j, Marks s.gen (s.slots j) where
  init s hs j := by
    obtain rfl := hs
    exact ⟨Nat.le_refl _, Nat.le_refl _, fun _ => ⟨Nat.le_refl _, Nat.le_refl _⟩⟩
  step s l s' hs hstep j := by
    have hj := hs j
    rcases next_cases hstep with ⟨-, rfl⟩ | ⟨i, -, hphase, rfl⟩ | ⟨i, -, -, rfl⟩ | ⟨i, -, rfl⟩ |
      ⟨i, -, hphase, -, rfl⟩ | ⟨i, -, hphase, rfl⟩ | ⟨i, -, -, rfl⟩
    -- a signal wakes the waiting slots and raises the generation under all
    · show Marks (s.gen + 1) (if _ then _ else _)
      split
      -- a slot that waited keeps its marks when it is woken
      next hwait =>
        have hstart := hj.start (.inr (.inl hwait))
        exact ⟨hj.returned, Nat.le_succ_of_le hj.began,
          fun _ => ⟨hstart.1, Nat.le_succ_of_le hstart.2⟩⟩
      next =>
        exact ⟨hj.returned, Nat.le_succ_of_le hj.began,
          fun h => ⟨(hj.start h).1, Nat.le_succ_of_le (hj.start h).2⟩⟩
    · rw [update_slots]
      split
      · exact ⟨Nat.le_trans hj.returned hj.began, Nat.le_refl _, fun h => by simp at h⟩
      · exact hj
    · rw [update_slots]
      split
      · exact ⟨hj.returned, hj.began, fun h => by simp at h⟩
      · exact hj
    · show Marks s.gen (if _ then _ else _)
      split
      · exact .left
      · exact hj
    · rw [update_slots]
      split
      · exact ⟨hj.returned, hj.began, fun _ => ⟨hj.began, Nat.le_refl _⟩⟩
      · exact hj
    · rw [update_slots]
      by_cases hji : j = i
      · subst hji
        -- the slot that enters stays at the generation of its claim
        rw [if_pos rfl]
        exact ⟨hj.returned, hj.began, fun _ => hj.start (.inl hphase)⟩
      · rw [if_neg hji]
        exact hj
    · show Marks s.gen (if _ then _ else _)
      split
      · exact .left
      · exact hj

/-! ## Runs without disturbance -/

theorem Calm.left {gen : Nat} {slot : WakeSlot} :
    Calm gen false { slot with phase := .working, began := gen, returned := gen } where
  marks := .left
  working _ h := absurd h (Nat.lt_irrefl _)
  entering h := nomatch h
  waiting h := nomatch h
  woken h := nomatch h
  fresh h := nomatch h

/-- Clearing the event leaves a slot alone that has no signal to lose. -/
theorem Calm.clear {gen : Nat} {event : Bool} {slot : WakeSlot} (h : Calm gen event slot)
    (halone : slot.phase = .working ∨ slot.phase = .entering → slot.began = gen) :
    Calm gen false slot where
  marks := h.marks
  working hphase hbegan := absurd hbegan (by rw [halone (.inl hphase)]; exact Nat.lt_irrefl _)
  entering hphase := by
    have hbegan := halone (.inr hphase)
    have hstart := (h.entering hphase).1
    exact ⟨hstart, by simp; omega⟩
  waiting hphase := ⟨(h.waiting hphase).1, (h.waiting hphase).2.1, rfl⟩
  woken := h.woken
  fresh h := nomatch h

theorem Calm.signal {gen : Nat} {event : Bool} {slot : WakeSlot} (h : Calm gen event slot) :
    Calm (gen + 1) true
      (if slot.phase = .waiting then { slot with phase := .woken } else slot) := by
  have hreturned : slot.returned < gen + 1 :=
    Nat.lt_succ_of_le (Nat.le_trans h.marks.returned h.marks.began)
  split
  next hwait =>
    have hstart := h.marks.start (.inr (.inl hwait))
    exact {
      marks := ⟨h.marks.returned, Nat.le_succ_of_le h.marks.began,
        fun _ => ⟨hstart.1, Nat.le_succ_of_le hstart.2⟩⟩
      working := fun hphase => nomatch hphase
      entering := fun hphase => nomatch hphase
      waiting := fun hphase => nomatch hphase
      woken := fun _ => Nat.lt_succ_of_le hstart.2
      fresh := fun _ => hreturned }
  next hwait =>
    exact {
      marks := ⟨h.marks.returned, Nat.le_succ_of_le h.marks.began,
        fun hphase => ⟨(h.marks.start hphase).1, Nat.le_succ_of_le (h.marks.start hphase).2⟩⟩
      working := fun _ _ => rfl
      entering := fun hphase => ⟨(h.entering hphase).1,
        iff_of_true rfl (Nat.lt_succ_of_le (h.marks.start (.inl hphase)).2)⟩
      waiting := fun hphase => absurd hphase hwait
      woken := fun hphase => Nat.lt_succ_of_lt (h.woken hphase)
      fresh := fun _ => hreturned }

theorem Calm.attempt {gen : Nat} {event : Bool} {slot : WakeSlot} (h : Calm gen event slot) :
    Calm gen event { slot with phase := .working, began := gen } where
  marks := ⟨Nat.le_trans h.marks.returned h.marks.began, Nat.le_refl _,
    fun hphase => by simp at hphase⟩
  working _ hbegan := absurd hbegan (Nat.lt_irrefl _)
  entering hphase := nomatch hphase
  waiting hphase := nomatch hphase
  woken hphase := nomatch hphase
  fresh := h.fresh

/-- A slot that executes a run waits for no signal. -/
theorem Calm.claim {gen : Nat} {event : Bool} {slot : WakeSlot} (h : Calm gen event slot) :
    Calm gen event { slot with phase := .executing } where
  marks := ⟨h.marks.returned, h.marks.began, fun hphase => by simp at hphase⟩
  working hphase := nomatch hphase
  entering hphase := nomatch hphase
  waiting hphase := nomatch hphase
  woken hphase := nomatch hphase
  fresh := h.fresh

/-- A slot that finds no event has not been signalled. -/
theorem Calm.fail {gen : Nat} {slot : WakeSlot} (h : Calm gen false slot)
    (hphase : slot.phase = .working) :
    Calm gen false { slot with phase := .entering, start := gen } where
  marks := ⟨h.marks.returned, h.marks.began, fun _ => ⟨h.marks.began, Nat.le_refl _⟩⟩
  working hphase := nomatch hphase
  entering _ := by
    have hbegan := h.marks.began
    -- it would have found the event if a signal had come since it began
    have hnot : ¬ slot.began < gen := fun hlt => Bool.false_ne_true (h.working hphase hlt)
    exact ⟨show slot.began = gen by omega, by simp⟩
  waiting hphase := nomatch hphase
  woken hphase := nomatch hphase
  fresh h := nomatch h

theorem Calm.enter {gen : Nat} {event : Bool} {slot : WakeSlot} (h : Calm gen event slot)
    (hphase : slot.phase = .entering) :
    Calm gen event { slot with phase := if event then .woken else .waiting } where
  marks := ⟨h.marks.returned, h.marks.began, fun _ => h.marks.start (.inl hphase)⟩
  working hwork := by cases event <;> simp at hwork
  entering hentering := by cases event <;> simp at hentering
  waiting hwait := by
    cases event with
    | true => simp at hwait
    | false =>
        have hquiet := h.entering hphase
        have hstart := h.marks.start (.inl hphase)
        -- no signal came since the slot entered, or the event would be set
        have hnot : ¬ slot.start < gen := fun hlt => Bool.false_ne_true (hquiet.2.2 hlt)
        exact ⟨show slot.began = gen by omega, show slot.start = gen by omega, rfl⟩
  woken hwoken := by
    cases event with
    | true => exact (h.entering hphase).2.1 rfl
    | false => simp at hwoken
  fresh := h.fresh

theorem calm_inductive : (wakes.restrict Undisturbed).Inductive
    fun s => ∀ j, Calm s.gen s.event (s.slots j) where
  init s hs j := by
    obtain rfl := hs
    exact ⟨⟨Nat.le_refl _, Nat.le_refl _, fun _ => ⟨Nat.le_refl _, Nat.le_refl _⟩⟩, nofun, nofun,
      nofun, nofun, nofun⟩
  step s l s' hs hstep j := by
    obtain ⟨hnext, hcalm⟩ := hstep
    have hj := hs j
    rcases next_cases hnext with ⟨-, rfl⟩ | ⟨i, -, -, rfl⟩ | ⟨i, -, -, rfl⟩ | ⟨i, hl, rfl⟩ |
      ⟨i, -, hphase, hevent, rfl⟩ | ⟨i, -, hphase, rfl⟩ | ⟨i, rfl, hphase, rfl⟩
    · exact hj.signal
    · show Calm s.gen s.event (if _ then _ else _)
      split
      · exact hj.attempt
      · exact hj
    · show Calm s.gen s.event (if _ then _ else _)
      split
      · exact hj.claim
      · exact hj
    · -- the event is cleared: every other slot is undisturbed
      have halone : s.Alone i := by
        rcases hl with ⟨rfl, -, hevent⟩ | ⟨rfl, -⟩
        · exact hcalm hevent
        · exact hcalm
      show Calm s.gen false (if _ then _ else _)
      split
      · exact .left
      next hne => exact hj.clear (halone j hne)
    · show Calm s.gen s.event (if _ then _ else _)
      rw [hevent] at hj ⊢
      split
      next heq =>
        subst heq
        exact hj.fail hphase
      next => exact hj
    · show Calm s.gen s.event (if _ then _ else _)
      split
      next heq =>
        subst heq
        exact hj.enter hphase
      next => exact hj
    · -- a timeout without a signal: the event is not set
      have hstart : (s.slots i).start = s.gen := hcalm
      have hevent : s.event = false := by
        rcases hphase with hphase | hphase | hphase
        · have hquiet := ((hs i).entering hphase).2
          rw [hstart] at hquiet
          by_contra hset
          exact Nat.lt_irrefl _ (hquiet.1 (by simpa using hset))
        · exact ((hs i).waiting hphase).2.2
        · have hlt := (hs i).woken hphase
          omega
      show Calm s.gen s.event (if _ then _ else _)
      rw [hevent] at hj ⊢
      split
      · exact .left
      · exact hj

/-! ## The law -/

theorem phase_of_timeout (h : s.next (.timeout i) = some s') :
    (s.slots i).phase = .entering ∨ (s.slots i).phase = .waiting ∨ (s.slots i).phase = .woken :=
  (Option.ite_none_right_eq_some.1 h).1

/-- A step of a calm state keeps the wake-ups. -/
theorem keepsWakes_of_calm (hs : ∀ j, Calm s.gen s.event (s.slots j)) (h : s.next l = some s')
    (hcalm : s.Undisturbed l) : s.KeepsWakes l where
  ready i hsignal hphase := by
    have hi := hs i
    -- a signalled slot is about to wait, to find the event, or was woken
    unfold Signalled at hsignal
    cases hp : (s.slots i).phase with
    | stopped => exact absurd hp hphase.1
    | executing => exact absurd hp hphase.2
    | working => exact .inr ⟨by rw [hp]; nofun, hi.working hp hsignal⟩
    | entering =>
        have hquiet := hi.entering hp
        rw [hquiet.1] at hsignal
        exact .inr ⟨by rw [hp]; nofun, hquiet.2.2 hsignal⟩
    -- a waiting slot began at this generation
    | waiting =>
        have hwait := hi.waiting hp
        omega
    | woken => exact .inl hp
  kept i hl hsignal := by
    subst hl
    have hi := hs i
    have hstart : (s.slots i).start = s.gen := hcalm
    unfold Signalled at hsignal
    rcases phase_of_timeout h with hp | hp | hp
    · have hquiet := hi.entering hp
      omega
    · have hwait := hi.waiting hp
      omega
    · have hwoken := hi.woken hp
      omega
  fresh i hi := by
    have hmarks := (hs i).marks
    cases l with
    | fail j =>
        -- the claim failed with the event set: it was set after the last wait of the slot
        obtain ⟨hevent, heq⟩ := Option.ite_none_right_eq_some.1 hi
        obtain rfl := Option.some.inj heq
        exact (hs j).fresh hevent
    | resume j =>
        obtain rfl := Option.some.inj hi
        have hp : (s.slots j).phase = .woken := (Option.ite_none_right_eq_some.1 h).1
        have hstart := hmarks.start (.inr (.inr hp))
        have hreturned := hmarks.returned
        have hwoken := (hs j).woken hp
        omega
    | timeout j =>
        obtain ⟨hne, -⟩ := Option.ite_none_right_eq_some.1 hi
        exact absurd hcalm hne
    | _ => exact nomatch hi

/-- A signalled slot can time out after the event was cleared under it. -/
theorem loses_of_cleared (hevent : s.event = false) (hsignal : s.Signalled j)
    (hphase : (s.slots j).phase = .working ∨ (s.slots j).phase = .entering) :
    ∃ tr s₁ s₂, wakes.Steps s tr s₁ ∧ wakes.step s₁ (.timeout j) s₂ ∧
      ¬ s₁.KeepsWakes (.timeout j) := by
  rcases hphase with hphase | hphase
  · -- its claim fails, it finds no event, and its timeout expires
    let s₁ := s.update j fun slot => { slot with phase := .entering, start := s.gen }
    have hfail : s.next (.fail j) = some s₁ := next_fail hphase hevent
    have hslot : s₁.slots j = { s.slots j with phase := .entering, start := s.gen } := if_pos rfl
    have htimeout : s₁.next (.timeout j) = some (s₁.leave j) :=
      next_timeout (.inl (by rw [hslot]))
    refine ⟨[.fail j], s₁, _, .snoc .nil hfail, htimeout, ?_⟩
    intro h
    refine h.kept j rfl ?_
    unfold Signalled
    rw [hslot]
    exact hsignal
  · have htimeout : s.next (.timeout j) = some (s.leave j) := next_timeout (.inl hphase)
    exact ⟨[], s, _, .nil, htimeout, fun h => h.kept j rfl hsignal⟩

/-- A disturbed step breaks the law, or leads to a state in which it can be broken. -/
theorem loses_of_disturbed (hs : ∀ j, Marks s.gen (s.slots j)) (h : s.next l = some s')
    (hdisturbed : ¬ s.Undisturbed l) :
    ∃ tr s₁ l₁ s₂, (tr = [] ∧ s₁ = s ∧ l₁ = l ∨ wakes.Steps s' tr s₁) ∧
      wakes.step s₁ l₁ s₂ ∧ ¬ s₁.KeepsWakes l₁ := by
  have hcleared (i : SlotId) (hs' : s' = ({ s with event := false } : Wakes).leave i)
      (halone : ¬ s.Alone i) : ∃ tr s₁ l₁ s₂,
        (tr = [] ∧ s₁ = s ∧ l₁ = l ∨ wakes.Steps s' tr s₁) ∧ wakes.step s₁ l₁ s₂ ∧
          ¬ s₁.KeepsWakes l₁ := by
    unfold Alone at halone
    push Not at halone
    -- another slot was signalled and has not waited yet: it loses the event
    obtain ⟨j, hne, hphase, hbegan⟩ := halone
    have hslot : s'.slots j = s.slots j := by
      rw [hs']
      exact if_neg hne
    have hsignal : s'.Signalled j := by
      unfold Signalled
      rw [hslot, hs']
      have hle := (hs j).began
      show (s.slots j).began < s.gen
      omega
    obtain ⟨tr, s₁, s₂, hsteps, hstep, hlost⟩ :=
      loses_of_cleared (j := j) (by rw [hs']; rfl) hsignal (by rw [hslot]; exact hphase)
    exact ⟨tr, s₁, _, s₂, .inr hsteps, hstep, hlost⟩
  rcases next_cases h with ⟨rfl, -⟩ | ⟨i, rfl, -⟩ | ⟨i, rfl, -⟩ | ⟨i, hl, hs'⟩ |
    ⟨i, rfl, -, hevent, -⟩ | ⟨i, rfl, -⟩ | ⟨i, rfl, hphase, -⟩
  · exact absurd trivial hdisturbed
  · exact absurd trivial hdisturbed
  · exact absurd trivial hdisturbed
  -- clearing under another slot: the loss comes when that one times out
  · refine hcleared i hs' ?_
    rcases hl with ⟨rfl, -, -⟩ | ⟨rfl, -⟩
    · exact fun halone => hdisturbed fun _ => halone
    · exact hdisturbed
  · exact absurd (fun hset => absurd (hevent.symm.trans hset) Bool.false_ne_true) hdisturbed
  · exact absurd trivial hdisturbed
  · -- the timeout of a slot that was signalled while it waited
    refine ⟨[], s, _, s', .inl ⟨rfl, rfl, rfl⟩, h, ?_⟩
    intro hkeeps
    refine hkeeps.kept i rfl ?_
    have hstart := (hs i).start hphase
    have hne : (s.slots i).start ≠ s.gen := hdisturbed
    unfold Signalled
    omega

/-- Undisturbed runs keep every wake-up, and a disturbance can lose one. -/
theorem wakes_kept_iff (s : Wakes) (l : WakeStep) (s' : Wakes) (h : wakes.step s l s') :
    ((wakes.restrict Undisturbed).Reachable s → s.Undisturbed l → s.KeepsWakes l) ∧
      (wakes.Reachable s → ¬ s.Undisturbed l →
        ∃ tr s₁ l₁ s₂, (tr = [] ∧ s₁ = s ∧ l₁ = l ∨ wakes.Steps s' tr s₁) ∧
          wakes.step s₁ l₁ s₂ ∧ ¬ s₁.KeepsWakes l₁) :=
  ⟨fun hs hcalm => keepsWakes_of_calm (calm_inductive.invariant s hs) h hcalm,
    fun hs hdisturbed => loses_of_disturbed (marks_inductive.invariant s hs) h hdisturbed⟩

/-- Steps that neither clear the event nor time out. -/
def plain (s : Wakes) : WakeStep → Bool
  | .fail _ => !s.event
  | .resume _ | .timeout _ => false
  | _ => true

/-- A slot waits and times out while no signal comes and another one executes a run. -/
theorem wakes_kept_iff_quiet : ∃ s s', (wakes.restrict Undisturbed).Reachable s ∧
    wakes.step s (.timeout 0) s' ∧ (s.slots 0).phase = .waiting ∧
      (s.slots 1).phase = .executing ∧ s.KeepsWakes (.timeout 0) := by
  have hplay : (TSys.play (fun s l => if plain s l then s.next l else none) ({} : Wakes)
      [.attempt 1, .claim 1, .attempt 0, .fail 0, .enter 0]).any (fun s =>
        decide ((s.slots 0).phase = .waiting) && decide ((s.slots 1).phase = .executing) &&
          decide ((s.slots 0).start = s.gen)) = true := by
    decide +kernel
  have hnext (s : Wakes) (l : WakeStep) (s' : Wakes)
      (h : (if plain s l then s.next l else none) = some s') :
      ∃ l, (wakes.restrict Undisturbed).step s l s' := by
    obtain ⟨hplain, hstep⟩ := Option.ite_none_right_eq_some.1 h
    refine ⟨l, hstep, ?_⟩
    cases l with
    | fail i =>
        intro hevent
        rw [plain, hevent] at hplain
        exact nomatch hplain
    | resume i => exact nomatch hplain
    | timeout i => exact nomatch hplain
    | _ => trivial
  obtain ⟨s, hs, hcheck⟩ := TSys.play_reachable (T := wakes.restrict Undisturbed) hnext rfl hplay
  simp only [Bool.and_eq_true, decide_eq_true_eq] at hcheck
  obtain ⟨⟨hwaiting, hexecuting⟩, hstart⟩ := hcheck
  have hstep : wakes.step s (.timeout 0) (s.leave 0) := next_timeout (.inr (.inl hwaiting))
  exact ⟨s, _, hs, hstep, hwaiting, hexecuting, (wakes_kept_iff s _ _ hstep).1 hs hstart⟩

/-- Slot 1 waits and slot 0 is at its claim when the signal comes; slot 1 clears the event,
and slot 0 waits for its timeout. -/
def stolenWake : List WakeStep :=
  [.attempt 0, .attempt 1, .fail 1, .enter 1, .signal, .resume 1, .fail 0, .enter 0]

/-- A timeout expires just after the signal, and leaves the event set. -/
def racedTimeout : List WakeStep :=
  [.attempt 0, .fail 0, .enter 0, .signal, .timeout 0]

/-- A wake-up is lost, and a wait returns `True` without a signal. -/
theorem wake_lost : (∃ s s', wakes.Reachable s ∧ wakes.step s (.timeout 0) s' ∧
      (s.slots 0).phase = .waiting ∧ s.Signalled 0) ∧
    ∃ s s', wakes.Reachable s ∧ wakes.step s (.fail 0) s' ∧ s.returnsTrue (.fail 0) = some 0 ∧
      (s.slots 0).returned = s.gen := by
  have hlost : (TSys.play Wakes.next ({} : Wakes) stolenWake).any (fun s =>
      decide ((s.slots 0).phase = .waiting) && decide ((s.slots 0).began < s.gen)) = true := by
    decide +kernel
  have hraced : (TSys.play Wakes.next ({} : Wakes) racedTimeout).any (fun s =>
      decide ((s.slots 0).phase = .working) && decide (s.event = true) &&
        decide ((s.slots 0).returned = s.gen)) = true := by decide +kernel
  refine ⟨?_, ?_⟩
  · obtain ⟨s, hs, hcheck⟩ :=
      TSys.play_reachable (T := wakes) (fun s l s' h => ⟨l, h⟩) rfl hlost
    simp only [Bool.and_eq_true, decide_eq_true_eq] at hcheck
    exact ⟨s, s.leave 0, hs, next_timeout (.inr (.inl hcheck.1)), hcheck.1, hcheck.2⟩
  · obtain ⟨s, hs, hcheck⟩ :=
      TSys.play_reachable (T := wakes) (fun s l s' h => ⟨l, h⟩) rfl hraced
    simp only [Bool.and_eq_true, decide_eq_true_eq] at hcheck
    have hnext : s.next (.fail 0) = some ((s.clear s.gen).leave 0) :=
      next_fail_set hcheck.1.1 hcheck.1.2
    exact ⟨s, _, hs, hnext, if_pos hcheck.1.2, hcheck.2⟩

end Wakes

end GraphHarbor
