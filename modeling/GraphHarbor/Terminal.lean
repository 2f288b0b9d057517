import GraphHarbor.Footprint
import GraphHarbor.Reaper

/-!
# The terminal event

`record_event` and `record_message_deltas` do not look at the status of their run: a
worker that publishes after an API cancel appends events behind the terminal one. In
runs without such late publications the terminal event is the last event of its run.
-/

namespace GraphHarbor

open Kit Txn

variable {now : Time} {S : RunRow → Prop} {v v' w : Db} {avail : Lock → Bool} {id : RunId}

/-- A terminal event of the run was recorded. -/
def Db.hasTerminal (v : Db) (id : RunId) : Bool :=
  v.recorded.any fun e => inRun id e && e.terminal

/-- `e'` may be recorded after `e`: a terminal event is the last one of its run. -/
def RuntimeEventRow.MayPrecede (e e' : RuntimeEventRow) : Prop :=
  e.terminal = true → ∀ id, e.runId = some id → e'.runId ≠ some id

/-- The log ends where its runs end: no event follows a terminal one, and a run that did
not end has none. -/
structure Db.Closing (v : Db) : Prop where
  last : v.recorded.Pairwise RuntimeEventRow.MayPrecede
  live : ∀ x r, v.runs.find? x = some r → r.status.isTerminal = false → v.hasTerminal x = false
  issued : ∀ e ∈ v.recorded, ∀ x, e.runId = some x → x ∈ v.issued
  stored : ∀ x r, v.runs.find? x = some r → x ∈ v.issued

/-- No terminal event of the run was ever recorded. -/
theorem Db.hasTerminal_eq_false :
    v.hasTerminal id = false ↔ ∀ e ∈ v.recorded, e.runId = some id → e.terminal = false := by
  simp [hasTerminal, inRun]

/-! ## Steps that record nothing -/

/-- What the log says of a run depends on the recorded events only. -/
theorem Db.hasTerminal_congr (h : v'.recorded = v.recorded) :
    v'.hasTerminal id = v.hasTerminal id := by
  unfold hasTerminal
  rw [h]

namespace Db.Closing

/-- Runs may end or keep their status, as long as nothing is recorded. -/
theorem frame (h : v.Closing) (hrecorded : v'.recorded = v.recorded)
    (hissued : v'.issued = v.issued) (hruns : v.Persists v') : v'.Closing where
  last := hrecorded ▸ h.last
  live x r' hr' hlive := by
    obtain ⟨r, hr, hterminal⟩ := hruns x r' hr'
    rw [Db.hasTerminal_congr hrecorded]
    refine h.live x r hr (Bool.eq_false_iff.2 fun ht => ?_)
    rw [hterminal ht] at hlive
    cases hlive
  issued e he x hx := by
    rw [hrecorded] at he
    rw [hissued]
    exact h.issued e he x hx
  stored x r' hr' := by
    obtain ⟨r, hr, -⟩ := hruns x r' hr'
    rw [hissued]
    exact h.stored x r hr

/-- A transaction without events. -/
theorem moves (h : v.Closing) (hrecorded : v'.recorded = v.recorded)
    (hmoves : Moves now S v v') : v'.Closing :=
  h.frame hrecorded hmoves.issued hmoves.persists

/-- A run without a terminal event may go to any status. -/
theorem assignRun (h : v.Closing) {f : RunRow → RunRow} (hopen : v.hasTerminal id = false) :
    (v.assignRun id f).Closing where
  last := h.last
  live x r hr hlive := by
    rw [Db.find?_assignRun] at hr
    split at hr
    · next heq => exact heq ▸ hopen
    · exact h.live x r hr hlive
  issued := h.issued
  stored x r hr := by
    rw [Db.find?_assignRun] at hr
    split at hr
    · obtain ⟨r₀, hr₀, -⟩ := Option.map_eq_some_iff.1 hr
      exact h.stored x r₀ hr₀
    · exact h.stored x r hr

/-- A submitted run has an id that no event carries. -/
theorem insertRun (h : v.Closing) {r : RunRow} (hfresh : v.drawn r.runId = false) :
    (v.insertRun r).Closing where
  last := h.last
  live x r' hr' hlive := by
    simp only [drawn, Bool.or_eq_false_iff, decide_eq_false_iff_not] at hfresh
    have habsent : v.runs.find? (Keyed.key r) = none := by simpa using hfresh.2
    rw [Db.insertRun, Table.find?_insert habsent] at hr'
    split at hr'
    · next hx =>
        -- a new run has no events yet
        rw [Db.hasTerminal_eq_false]
        intro e he hid
        rw [hx, key_run] at hid
        exact absurd (h.issued e he r.runId hid) hfresh.1
    · exact h.live x r' hr' hlive
  issued e he x hx := List.mem_append_left _ (h.issued e he x hx)
  stored x r' hr' := by
    have habsent : v.runs.find? (Keyed.key r) = none := by
      simp only [drawn, Bool.or_eq_false_iff] at hfresh
      simpa using hfresh.2
    rw [Db.insertRun, Table.find?_insert habsent] at hr'
    split at hr'
    · next hx =>
        rw [hx]
        exact List.mem_append_right _ (by simp)
    · exact List.mem_append_left _ (h.stored x r' hr')

/-! ## Recording events -/

/-- An event of a stored run without a terminal event; a terminal one when the run has
ended. -/
theorem insertEvent (h : v.Closing) {e : RuntimeEventRow}
    (hevent : ∀ x, e.runId = some x → v.hasTerminal x = false ∧ ∃ r, v.runs.find? x = some r ∧
      (e.terminal = true → r.status.isTerminal = true)) : (v.insertEvent e).Closing where
  last := by
    refine List.pairwise_append.2 ⟨h.last, List.pairwise_singleton _ _, ?_⟩
    intro e₀ he₀ e' he' hterminal x hx hx'
    obtain rfl := List.mem_singleton.1 he'
    have hopen := Db.hasTerminal_eq_false.1 (hevent x hx').1 e₀ he₀ hx
    rw [hterminal] at hopen
    cases hopen
  live x r hr hlive := by
    rw [Db.hasTerminal_eq_false]
    intro e₀ he₀ hx
    rcases List.mem_append.1 he₀ with he₀ | he₀
    · exact Db.hasTerminal_eq_false.1 (h.live x r hr hlive) e₀ he₀ hx
    · obtain rfl := List.mem_singleton.1 he₀
      obtain ⟨-, r₀, hr₀, hended⟩ := hevent x hx
      obtain rfl := Option.some.inj (hr.symm.trans hr₀)
      refine Bool.eq_false_iff.2 fun hterminal => ?_
      rw [hended hterminal] at hlive
      cases hlive
  issued e₀ he₀ x hx := by
    rcases List.mem_append.1 he₀ with he₀ | he₀
    · exact h.issued e₀ he₀ x hx
    · obtain rfl := List.mem_singleton.1 he₀
      obtain ⟨-, r₀, hr₀, -⟩ := hevent x hx
      exact h.stored x r₀ hr₀
  stored := h.stored

end Db.Closing

/-- An event of a run that has no terminal event yet; a terminal one needs a run that ended. -/
theorem recordRunEvent_closing {th : Option ThreadId} {topic : String} {payload : Dict}
    {ns : List String} {terminal : Bool} {e : RuntimeEventRow} {r : RunRow} (hv : v.Closing)
    (hopen : v.hasTerminal id = false) (hr : v.runs.find? id = some r)
    (hended : terminal = true → r.status.isTerminal = true)
    (h : (recordRunEvent now id th topic payload ns terminal).Returns avail v e v') :
    v'.Closing := by
  obtain ⟨run, hrun, ⟨-, -, rfl⟩ | ⟨-, he, rfl, -, -⟩⟩ := recordRunEvent_returns h
  · exact hv
  · obtain rfl := Option.some.inj (hr.symm.trans hrun)
    have hthread : (v.assignThreadOf e.threadId (.numbered e.sequence)).Closing := by
      cases e.threadId with
      | none => exact hv
      | some t => exact hv.frame rfl rfl fun x r hr => ⟨r, hr, fun ht => ht⟩
    have hopen' : (v.assignThreadOf e.threadId (.numbered e.sequence)).hasTerminal id = false := by
      rw [← hopen]
      exact Db.hasTerminal_congr (by cases e.threadId <;> rfl)
    refine (hthread.assignRun hopen').insertEvent fun x hx => ?_
    rw [he] at hx
    obtain rfl : id = x := Option.some.inj hx
    refine ⟨hopen', r.assign (.numbered e.sequence), ?_, ?_⟩
    · rw [Db.find?_assignRun, if_pos rfl, Db.assignThreadOf_runs, hr]
      rfl
    · rw [he]
      exact hended

/-- A change of a run that did not end, and the event that tells of it. -/
theorem Db.Closing.ends {v₁ : Db} {th : Option ThreadId} {topic : String} {payload : Dict}
    {ns : List String} {terminal : Bool} {e : RuntimeEventRow} {r : RunRow}
    {f : RunRow → RunRow} (hv : v.Closing) (hr : v.runs.find? id = some r)
    (hlive : r.status.isTerminal = false)
    (h : (recordRunEvent now id th topic payload ns terminal).Returns avail v₁ e v')
    (hruns : v₁.runs = (v.assignRun id f).runs) (hrecorded : v₁.recorded = v.recorded)
    (hissued : v₁.issued = v.issued)
    (hended : terminal = true → (f r).status.isTerminal = true) : v'.Closing := by
  have hopen := hv.live id r hr hlive
  have hv₁ : v₁.Closing :=
    (hv.assignRun (f := f) hopen).frame hrecorded hissued fun x r hr =>
      ⟨r, hruns ▸ hr, fun ht => ht⟩
  have hrow : v₁.runs.find? id = some (r.assign f) := by
    rw [hruns, Db.find?_assignRun, if_pos rfl, hr]
    rfl
  exact recordRunEvent_closing hv₁ (by rw [Db.hasTerminal_congr hrecorded, hopen]) hrow hended h

/-- The log is a terminal event of run 1 and a later event of run 1. -/
def overtaken (w : World) : Bool :=
  match w.db.recorded with
  | [e, e'] => e.terminal && e.runId = some 1 && e'.runId = some 1 && e.sequence < e'.sequence
  | _ => false

end GraphHarbor
