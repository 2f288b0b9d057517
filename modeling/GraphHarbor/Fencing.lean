import GraphHarbor.Exclusion

/-!
# Checkpoint fencing

A claim hands out a token: run, owner, generation. A write that carries a token is
accepted only while that token is the last one handed out for its run, and its run is
`running` under an unexpired lease.
-/

namespace GraphHarbor

open Kit Txn

/-! ## Tokens in a run -/

/-- The token a claim hands out. -/
def Step.token? : Step → Option WriterToken
  | .call (.claim _ owner _) (.ok (.run (some r))) => some ⟨r.runId, owner, r.retryCount⟩
  | _ => none

/-- The token of an accepted checkpoint write. -/
def Step.accepted? : Step → Option WriterToken
  | .call (.aput token _ _) (.ok _) => token
  | .call (.aputWrites token _ _ _ _) (.ok _) => token
  | _ => none

/-- The request, answered by `a`, cancelled or rolled back the run `id`. -/
def Request.Cancels (id : RunId) (q : Request) (a : Reply) : Prop :=
  match q, a with
  | .runsCancel x _, .flag true => x = id
  | .runsQueue _ .cancel _ requested, _ => id ∈ requested
  | _, _ => False

/-- A cancel or a rollback request of the run `id` that committed. -/
def Step.Cancels (id : RunId) : Step → Prop
  | .call q (.ok a) => q.Cancels id a
  | _ => False

def tokens (tr : List Step) : List WriterToken := tr.filterMap Step.token?

def accepted (tr : List Step) : List WriterToken := tr.filterMap Step.accepted?

def ofRun (id : RunId) (ks : List WriterToken) : List WriterToken := ks.filter (·.runId = id)

/-- The token of the most recent claim of the run. -/
def lastToken (ks : List WriterToken) (id : RunId) : Option WriterToken := (ofRun id ks).getLast?

def generations (ks : List WriterToken) (id : RunId) : List Nat :=
  (ofRun id ks).map (·.generation)

section Tokens

variable {ks : List WriterToken} {k : WriterToken} {id : RunId}

@[simp] theorem mem_ofRun : k ∈ ofRun id ks ↔ k ∈ ks ∧ k.runId = id := by
  simp [ofRun]

theorem lastToken_append : lastToken (ks ++ [k]) k.runId = some k := by
  simp [lastToken, ofRun]

theorem lastToken_append_of_ne (h : id ≠ k.runId) :
    lastToken (ks ++ [k]) id = lastToken ks id := by
  simp [lastToken, ofRun, h.symm]

theorem mem_of_lastToken (h : lastToken ks id = some k) : k ∈ ks :=
  (mem_ofRun.1 (List.mem_of_getLast? h)).1

theorem generations_append : generations (ks ++ [k]) id =
    generations ks id ++ if k.runId = id then [k.generation] else [] := by
  by_cases h : k.runId = id <;> simp [generations, ofRun, h]

theorem generations_eq_nil (h : ∀ k ∈ ks, k.runId ≠ id) : generations ks id = [] := by
  simpa [generations, ofRun] using h

end Tokens

/-! ## The invariant -/

/-- The tokens `ks` were handed out and the tokens `as` accepted, in this order. -/
structure Db.Fence (ks as : List WriterToken) (v : Db) : Prop where
  issued : ∀ r ∈ v.runs, r.runId ∈ v.issued
  known : ∀ k ∈ ks, k.runId ∈ v.issued
  accepted : ∀ k ∈ as, k ∈ ks
  current : ∀ r ∈ v.runs, r.status = .running → ∀ o, r.leaseOwner = some o →
    lastToken ks r.runId = some ⟨r.runId, o, r.retryCount⟩
  bounded : ∀ r ∈ v.runs, ∀ g ∈ generations as r.runId, g ≤ r.retryCount
  sorted : ∀ id, (generations as id).Pairwise (· ≤ ·)

variable {now : Time} {S : RunRow → Prop} {v v' : Db} {ks as : List WriterToken}

/-- The lease owner of a running run is the one it was claimed by. -/
theorem RunMove.running_owner {r r' : RunRow} (h : RunMove now S r r')
    (hr : r.status = .pending → r.leaseOwner = none) (hrunning : r'.status = .running)
    {o : String} (ho : r'.leaseOwner = some o) : r.status = .running ∧ r.leaseOwner = some o := by
  have hrun : r.status = .running := by
    rcases h.running hrunning with hrun | ⟨hp, howner⟩
    · exact hrun
    -- a pending run has no owner
    · simp [hr hp] at howner
  refine ⟨hrun, ?_⟩
  cases h with
  | quiet h => rw [← h.leaseOwner, ho]
  | renewed _ _ _ _ _ howner => rw [← howner, ho]
  | released _ _ _ _ howner => simp [howner] at ho
  | interrupted _ _ hs => simp [hs] at hrunning
  | rollingBack _ _ hs => simp [hs] at hrunning
  | leaseReleased _ _ _ _ _ howner => simp [howner] at ho
  | exhausted _ _ hs => simp [hs] at hrunning

theorem Move.fence (hmove : Move now S v v') (hexcl : v.Exclusive now) (h : v.Fence ks as) :
    v'.Fence ks as where
  issued r' hr' := by
    obtain ⟨r, hr, hrun⟩ := hmove.origin hr'
    rw [hrun.sameAttempts.runId, hmove.issued]
    exact h.issued r hr
  known k hk := hmove.issued ▸ h.known k hk
  accepted := h.accepted
  current r' hr' hrunning o ho := by
    obtain ⟨r, hr, hrun⟩ := hmove.origin hr'
    obtain ⟨hr₀, ho₀⟩ := hrun.running_owner (hexcl.pending r hr) hrunning ho
    rw [hrun.sameAttempts.runId, hrun.sameAttempts.retryCount]
    exact h.current r hr hr₀ o ho₀
  bounded r' hr' g hg := by
    obtain ⟨r, hr, hrun⟩ := hmove.origin hr'
    rw [hrun.sameAttempts.runId] at hg
    rw [hrun.sameAttempts.retryCount]
    exact h.bounded r hr g hg
  sorted := h.sorted

theorem Submit.fence {r : RunRow} (hsubmit : Submit r v v') (h : v.Fence ks as) :
    v'.Fence ks as where
  issued r' hr' := by
    rw [hsubmit.issued]
    rcases hsubmit.origin hr' with rfl | ⟨hr, -⟩
    · simp
    · exact List.mem_append_left _ (h.issued r' hr)
  known k hk := by
    rw [hsubmit.issued]
    exact List.mem_append_left _ (h.known k hk)
  accepted := h.accepted
  current r' hr' hrunning := by
    rcases hsubmit.origin hr' with rfl | ⟨hr, -⟩
    · simp [hsubmit.submitted.status] at hrunning
    · exact h.current r' hr hrunning
  bounded r' hr' g hg := by
    rcases hsubmit.origin hr' with rfl | ⟨hr, -⟩
    · -- no token of a fresh id was ever accepted
      rw [generations_eq_nil] at hg
      · simp at hg
      · intro k hk heq
        have hfresh := hsubmit.fresh
        simp [Db.drawn, ← heq, h.known k (h.accepted k hk)] at hfresh
    · exact h.bounded r' hr g hg
  sorted := h.sorted

/-- A claim hands out the next token of its run. -/
theorem Start.fence {repo : RunRepository} {owner : String} {run : RunRow}
    (hstart : Start repo now owner run v v') (h : v.Fence ks as) :
    v'.Fence (ks ++ [⟨run.runId, owner, run.retryCount + 1⟩]) as where
  issued r' hr' := by
    -- a claim submits nothing
    rw [hstart.issued]
    rcases hstart.origin hr' with rfl | ⟨hr, -⟩
    · exact h.issued run (Table.mem_of_find? hstart.found)
    · exact h.issued r' hr
  known k hk := by
    rw [hstart.issued]
    rcases List.mem_append.1 hk with hk | hk
    · exact h.known k hk
    · rw [List.mem_singleton.1 hk]
      exact h.issued run (Table.mem_of_find? hstart.found)
  accepted k hk := List.mem_append_left _ (h.accepted k hk)
  current r' hr' hrunning o ho := by
    rcases hstart.origin hr' with rfl | ⟨hr, hne⟩
    -- the claimed run has the token just appended
    · cases ho
      exact lastToken_append
    -- the tokens of the other runs are as before
    · rw [lastToken_append_of_ne hne]
      exact h.current r' hr hrunning o ho
  bounded r' hr' g hg := by
    rcases hstart.origin hr' with rfl | ⟨hr, -⟩
    · exact (h.bounded run (Table.mem_of_find? hstart.found) g hg).trans (Nat.le_succ _)
    · exact h.bounded r' hr g hg
  sorted := h.sorted

theorem Moves.fence (hmoves : Moves now S v v') (hexcl : v.Exclusive now) (h : v.Fence ks as) :
    v'.Fence ks as :=
  (hmoves.preserves (P := fun v => v.Exclusive now ∧ v.Fence ks as)
    (fun _ _ hv hmove => ⟨hmove.exclusive hv.1, hmove.fence hv.1 hv.2⟩) ⟨hexcl, h⟩).2

/-- The token of a claim whose run failed at once was never handed out. -/
theorem Db.Fence.drop {k : WriterToken} (h : v.Fence (ks ++ [k]) as) (has : ∀ k ∈ as, k ∈ ks)
    (hended : ∀ r, v.runs.find? k.runId = some r → r.status.isTerminal = true) :
    v.Fence ks as where
  issued := h.issued
  known k' hk' := h.known k' (List.mem_append_left _ hk')
  accepted := has
  -- only the dropped token can be missing, and its run has ended
  current r hr hrunning o ho := by
    rw [← h.current r hr hrunning o ho, lastToken_append_of_ne]
    intro heq
    have hterminal := hended r (heq ▸ Db.mem_runs.1 hr)
    simp [hrunning] at hterminal
  bounded := h.bounded
  sorted := h.sorted

/-- A token that owns its run is the last one handed out for it. -/
theorem Db.Fence.owned {k : WriterToken} (h : v.Fence ks as) {scope : CheckpointScope}
    {r : RunRow} (hr : v.runs.find? k.runId = some r) (howns : k.owns now scope r = true) :
    lastToken ks k.runId = some k ∧ r.status = .running ∧ r.retryCount = k.generation ∧
      ∃ e, r.leaseExpiresAt = some e ∧ now < e := by
  simp only [WriterToken.owns, Bool.and_eq_true, decide_eq_true_eq] at howns
  obtain ⟨⟨⟨⟨hrunning, hlease⟩, howner⟩, hgen⟩, -⟩ := howns
  have hid : r.runId = k.runId := Table.key_of_find? hr
  refine ⟨?_, hrunning, hgen, ?_⟩
  · have hlast := h.current r (Table.mem_of_find? hr) hrunning k.owner howner
    rw [hid, hgen] at hlast
    exact hlast
  · cases he : r.leaseExpiresAt with
    | none => simp [he] at hlease
    | some e => exact ⟨e, rfl, by simpa [he] using hlease⟩

theorem Db.Fence.accept {k : WriterToken} (h : v.Fence ks as) (hruns : v'.runs = v.runs)
    (hissued : v'.issued = v.issued) {scope : CheckpointScope} {r : RunRow}
    (hr : v.runs.find? k.runId = some r) (howns : k.owns now scope r = true) :
    v'.Fence ks (as ++ [k]) := by
  obtain ⟨hlast, -, hgen, -⟩ := h.owned hr howns
  -- the row still has the generation of the token, and bounds the accepted ones
  have hbound : ∀ g ∈ generations as k.runId, g ≤ k.generation := by
    intro g hg
    have hid : r.runId = k.runId := Table.key_of_find? hr
    rw [← hgen]
    exact h.bounded r (Table.mem_of_find? hr) g (hid ▸ hg)
  refine ⟨?_, ?_, ?_, ?_, ?_, ?_⟩
  · rw [hruns, hissued]
    exact h.issued
  · rw [hissued]
    exact h.known
  · intro k' hk'
    rcases List.mem_append.1 hk' with hk' | hk'
    · exact h.accepted k' hk'
    · rw [List.mem_singleton.1 hk']
      exact mem_of_lastToken hlast
  · rw [hruns]
    exact h.current
  · rw [hruns]
    intro r' hr' g hg
    rw [generations_append, List.mem_append] at hg
    rcases hg with hg | hg
    · exact h.bounded r' hr' g hg
    · split at hg
      -- the row of the token itself
      · next heq =>
          rw [Db.mem_runs, ← heq, hr] at hr'
          obtain rfl := Option.some.inj hr'
          rw [List.mem_singleton.1 hg, hgen]
      · simp at hg
  · intro id
    rw [generations_append]
    split
    · next heq =>
        rw [List.pairwise_append]
        refine ⟨h.sorted id, List.pairwise_singleton _ _, fun a ha b hb => ?_⟩
        rw [List.mem_singleton.1 hb]
        exact hbound a (heq ▸ ha)
    · rw [List.append_nil]
      exact h.sorted id

/-! ## Runs -/

section Runs

variable {avail : Lock → Bool} {q : Request} {a : Reply} {k : WriterToken} {tr : List Step}

/-- An accepted write found its token to own the run. -/
theorem accepted_returns (hret : (q.program now).Returns avail v a v')
    (hk : (Step.call q (.ok a)).accepted? = some k) :
    v'.runs = v.runs ∧ v'.issued = v.issued ∧
      ∃ scope r, v.runs.find? k.runId = some r ∧ k.owns now scope r = true := by
  cases q <;> simp only [Step.accepted?, reduceCtorEq] at hk <;> subst hk
  all_goals
    simp only [Request.program, replying_returns] at hret
    obtain ⟨_, hret, -⟩ := hret
  case aput =>
    -- both writes check the token before they write
    obtain ⟨hsame, hadmits⟩ := aput_returns hret
    obtain ⟨r, hr, howns⟩ := hadmits k rfl
    exact ⟨hsame.runs, hsame.issued, _, r, hr, howns⟩
  case aputWrites =>
    obtain ⟨hsame, hadmits⟩ := aputWrites_returns hret
    obtain ⟨r, hr, howns⟩ := hadmits k rfl
    exact ⟨hsame.runs, hsame.issued, _, r, hr, howns⟩

theorem token?_eq_none (hclaim : ∀ repo owner valid, q = .claim repo owner valid →
    a = .run none) : (Step.call q (.ok a)).token? = none := by
  cases q with
  | claim repo owner valid => rw [hclaim repo owner valid rfl]; rfl
  | _ => rfl

theorem tokens_append (l : Step) : tokens (tr ++ [l]) = tokens tr ++ l.token?.toList := by
  cases h : l.token? <;> simp [tokens, h]

theorem accepted_append (l : Step) : accepted (tr ++ [l]) = accepted tr ++ l.accepted?.toList := by
  cases h : l.accepted? <;> simp [accepted, h]

theorem fence_step (hret : (q.program now).Returns avail v a v') (hexcl : v.Exclusive now)
    (h : v.Fence (tokens tr) (accepted tr)) :
    v'.Fence (tokens (tr ++ [.call q (.ok a)])) (accepted (tr ++ [.call q (.ok a)])) := by
  rw [tokens_append, accepted_append]
  cases Request.effect hret with
  | moves hmoves hclaim =>
      rw [token?_eq_none hclaim, Option.toList_none, List.append_nil]
      -- among the moves only a checkpoint write accepts a token
      cases hk : (Step.call q (.ok a)).accepted? with
      | none =>
          rw [Option.toList_none, List.append_nil]
          exact hmoves.fence hexcl h
      | some k =>
          obtain ⟨hruns, hissued, scope, r, hr, howns⟩ := accepted_returns hret hk
          exact h.accept hruns hissued hr howns
  | submit hq hsubmit =>
      subst hq
      rw [token?_eq_none (by simp), Option.toList_none, List.append_nil]
      rw [show (Step.call (.runsCreate _ _) (.ok a)).accepted? = none from rfl,
        Option.toList_none, List.append_nil]
      exact hsubmit.fence h
  | @claim repo owner valid run v₁ hq hstart hmoves b hb hstarted =>
      subst hq hb
      have hfence := hmoves.fence (hstart.exclusive hexcl) (hstart.fence h)
      rw [show (Step.call (.claim repo owner valid) (.ok (.run b))).accepted? = none from rfl,
        Option.toList_none, List.append_nil]
      -- the run failed at once and its token was not handed out, or it runs
      rcases hstarted with ⟨rfl, hended⟩ | ⟨rfl, -⟩
      · rw [show (Step.call (.claim repo owner valid) (.ok (.run none))).token? = none from rfl,
          Option.toList_none, List.append_nil]
        exact hfence.drop h.accepted hended
      · exact hfence

/-- Tokens and accepted writes of every run of the service. -/
theorem fence_trace {allows : Request → Prop} :
    (service allows).TraceInductive fun tr w =>
      w.db.Exclusive w.clock ∧ w.db.Fence (tokens tr) (accepted tr) where
  init w hfresh := by
    refine ⟨exclusive_inductive.init w hfresh, ?_⟩
    have hfresh : w.db.Fresh := hfresh
    refine ⟨?_, ?_, ?_, ?_, ?_, ?_⟩ <;>
      simp [hfresh.runs, tokens, accepted, generations, ofRun]
  step tr w l w' h hstep := by
    refine ⟨exclusive_inductive.step w l w' h.1 hstep, ?_⟩
    rcases service_step hstep with ⟨d, rfl, rfl⟩ | ⟨q, e, rfl, rfl⟩ |
      ⟨q, a, avail, db, rfl, -, rfl, hret⟩
    · rw [tokens_append, accepted_append]
      simpa [Step.token?, Step.accepted?] using h.2
    · have ha : (Step.call q (.error e)).accepted? = none := by cases q <;> rfl
      have ht : (Step.call q (.error e)).token? = none := by cases q <;> rfl
      rw [tokens_append, accepted_append, ht, ha]
      simpa using h.2
    · exact fence_step hret h.1 h.2

/-! ## Cancelled runs -/

/-- The run was submitted and has ended. -/
structure Db.Over (v : Db) (id : RunId) : Prop where
  issued : id ∈ v.issued
  ended : ∀ r, v.runs.find? id = some r → r.status.isTerminal = true

variable {id : RunId}

theorem Move.over (hmove : Move now S v v') (h : v.Over id) : v'.Over id where
  issued := hmove.issued ▸ h.issued
  ended r' hr' := by
    obtain rfl : r'.runId = id := Table.key_of_find? hr'
    obtain ⟨r, hr, hrun⟩ := hmove.origin (Table.mem_of_find? hr')
    rw [hrun.sameAttempts.runId] at h
    exact hrun.terminal (h.ended r (Db.mem_runs.1 hr))

theorem Moves.over (hmoves : Moves now S v v') (h : v.Over id) : v'.Over id :=
  hmoves.preserves (fun _ _ hv hmove => hmove.over hv) h

theorem Submit.over {r : RunRow} (hsubmit : Submit r v v') (h : v.Over id) : v'.Over id where
  issued := by
    rw [hsubmit.issued]
    exact List.mem_append_left _ h.issued
  ended r' hr' := by
    -- an id that was issued is not submitted again
    rw [hsubmit.find?, if_neg] at hr'
    · exact h.ended r' hr'
    · rintro rfl
      have hfresh := hsubmit.fresh
      simp [Db.drawn, h.issued] at hfresh

theorem Start.over {repo : RunRepository} {owner : String} {run : RunRow}
    (hstart : Start repo now owner run v v') (h : v.Over id) : v'.Over id where
  issued := hstart.issued ▸ h.issued
  ended r' hr' := by
    by_cases hid : id = run.runId
    -- the claimed run was pending, so not over
    · have hterminal := h.ended run (hid ▸ hstart.found)
      simp [eligible_pending hstart.eligible] at hterminal
    · rw [hstart.others id hid] at hr'
      exact h.ended r' hr'

theorem Request.over {q : Request} {a : Reply} (h : v.Over id)
    (hret : (q.program now).Returns avail v a v') : v'.Over id := by
  cases q.effect hret with
  | moves hmoves => exact hmoves.over h
  | submit _ hsubmit => exact hsubmit.over h
  | claim _ hstart hmoves => exact hmoves.over (hstart.over h)

theorem over_inductive {allows : Request → Prop} {w w' : World} (h : w.db.Over id)
    (hsteps : (service allows).Steps w tr w') : w'.db.Over id := by
  induction hsteps with
  | nil => exact h
  | snoc _ hstep ih =>
      rcases service_step hstep with ⟨d, -, rfl⟩ | ⟨q, e, -, rfl⟩ |
        ⟨q, a, avail, db, -, -, rfl, hret⟩
      · exact ih
      · exact ih
      · exact Request.over ih hret

theorem cancelRow_over {action : CancelAction} {u : Unit} (hid : id ∈ v.issued)
    (h : (cancelRow now id action).Returns avail v u v') : v'.Over id := by
  have hmoves : Moves now (fun _ => False) v v' := cancelRow_moves h
  refine ⟨hmoves.issued ▸ hid, fun r' hr' => ?_⟩
  cases hrow : v.runs.find? id with
  | none =>
      simp only [cancelRow, returns_bind, returns_lockRunIf, hrow, Option.filter_none] at h
      obtain ⟨a, _, ⟨rfl, ⟨rfl, -⟩ | ⟨rfl, -⟩⟩, h⟩ := h <;>
        rw [(returns_ret.1 h).2, hrow] at hr' <;>
        cases hr'
  | some row =>
      rcases cancelRow_ended hrow h with ⟨-, hnone⟩ | ⟨r, hr, -, hterminal, -⟩
      · simp [hnone] at hr'
      · exact Option.some.inj (hr.symm.trans hr') ▸ hterminal

theorem interruptAll_over {ids : List RunId} {u : Unit} (hid : id ∈ v.issued)
    (h : (interruptAll now ids).Returns avail v u v') (hmem : id ∈ ids) : v'.Over id := by
  induction ids generalizing v with
  | nil => simp at hmem
  | cons x xs ih =>
      simp only [interruptAll, returns_bind] at h
      obtain ⟨_, v₁, hcancel, h⟩ := h
      have hmoves : Moves now (fun _ => False) v v₁ := cancelRow_moves hcancel
      rcases List.mem_cons.1 hmem with rfl | hmem
      -- the row is over after its own cancel, and stays so in the rest of the loop
      · have hrest : Moves now (fun _ => False) v₁ v' := interruptAll_moves h
        exact hrest.over (cancelRow_over hid hcancel)
      · exact ih (hmoves.issued ▸ hid) h hmem

/-- After a committed cancel or rollback request the run is over. -/
theorem cancels_over (hid : id ∈ v.issued) (hret : (q.program now).Returns avail v a v')
    (hcancels : (Step.call q (.ok a)).Cancels id) : v'.Over id := by
  cases q <;> try exact False.elim hcancels
  case runsCancel x action =>
    simp only [Request.program, replying_returns] at hret
    obtain ⟨b, hret, rfl⟩ := hret
    cases b with
    | false => exact False.elim hcancels
    | true =>
        obtain rfl : x = id := hcancels
        have hmoves : Moves now (fun _ => False) v v' := runsCancel_moves hret
        have hissued := hmoves.issued ▸ hid
        obtain ⟨row, -, ⟨-, hnone⟩ | ⟨r, hr, -, hterminal, -⟩⟩ := runsCancel_ended hret
        · exact ⟨hissued, by simp [hnone]⟩
        · exact ⟨hissued, fun r' hr' => Option.some.inj (hr.symm.trans hr') ▸ hterminal⟩
  case runsQueue t operation expected requested =>
    cases operation with
    | reorder => exact False.elim hcancels
    | cancel =>
        simp only [Request.program, replying_returns] at hret
        obtain ⟨u, h, -⟩ := hret
        simp only [runsQueue, returns_bind, returns_lockThread] at h
        obtain ⟨_, _, ⟨rfl, rfl, -⟩, h⟩ := h
        split at h
        · simp at h
        · simp only [returns_bind, returns_query] at h
          obtain ⟨rows, _, hrows, _, _, ⟨rfl, rfl⟩, h⟩ := h
          obtain ⟨rfl, -⟩ := lockRuns_rows hrows
          split at h
          · simp at h
          · exact interruptAll_over hid h hcancels

/-! ## The law -/

/-- A write with the token `k` to `scope` would be accepted. -/
def World.Acceptable (w : World) (scope : CheckpointScope) (k : WriterToken) : Prop :=
  ∃ r, w.db.runs.find? k.runId = some r ∧ k.owns w.clock scope r = true

/-- What fencing says of a run `tr` of the service that leads to `w`. -/
structure Fenced (tr : List Step) (w : World) : Prop where
  /-- An accepted token is the one of the most recent claim; its run is running and its
  lease has not expired. -/
  accepted : ∀ l w' k, (service fun _ => True).step w l w' → l.accepted? = some k →
    lastToken (tokens tr) k.runId = some k ∧
      ∃ r, w.db.runs.find? k.runId = some r ∧ r.status = .running ∧
        ∃ e, r.leaseExpiresAt = some e ∧ w.clock < e
  /-- The accepted generations of one run never decrease. -/
  generations : ∀ id, (generations (GraphHarbor.accepted tr) id).Pairwise (· ≤ ·)
  /-- At most one token per thread is acceptable. -/
  unique : ∀ scope k k', w.Acceptable scope k → w.Acceptable scope k' → k = k'
  /-- After a cancel or a rollback request no earlier token of the run is accepted. -/
  cancelled : ∀ l w₁ id tr' w₂ l' w₃ k, (service fun _ => True).step w l w₁ → l.Cancels id →
    (service fun _ => True).Steps w₁ tr' w₂ → (service fun _ => True).step w₂ l' w₃ →
    l'.accepted? = some k → k ∈ tokens tr → k.runId ≠ id

/-- Only committed requests accept a token or cancel a run. -/
theorem commit_of_accepted {allows : Request → Prop} {w w' : World} {l : Step}
    (hstep : (service allows).step w l w') (hk : l.accepted? = some k) :
    ∃ q a avail db, l = .call q (.ok a) ∧ w' = { w with db := db } ∧
      (q.program w.clock).Returns avail w.db a db := by
  rcases service_step hstep with ⟨d, rfl, -⟩ | ⟨q, e, rfl, -⟩ | ⟨q, a, avail, db, hl, -, hw, hret⟩
  · cases hk
  · cases q <;> cases hk
  · exact ⟨q, a, avail, db, hl, hw, hret⟩

theorem commit_of_cancels {allows : Request → Prop} {w w' : World} {l : Step}
    (hstep : (service allows).step w l w') (hl : l.Cancels id) :
    ∃ q a avail db, l = .call q (.ok a) ∧ w' = { w with db := db } ∧
      (q.program w.clock).Returns avail w.db a db := by
  rcases service_step hstep with ⟨d, rfl, -⟩ | ⟨q, e, rfl, -⟩ | ⟨q, a, avail, db, hl, -, hw, hret⟩
  · exact hl.elim
  · exact hl.elim
  · exact ⟨q, a, avail, db, hl, hw, hret⟩

/-- Two running runs of one scope are the same run. -/
theorem Db.Exclusive.running_unique (h : v.Exclusive now) {scope : CheckpointScope}
    {r r' : RunRow} (hr : r ∈ v.runs) (hr' : r' ∈ v.runs) (hs : r.scope = scope)
    (hs' : r'.scope = scope) (hrun : r.status = .running) (hrun' : r'.status = .running) :
    r = r' := by
  subst hs
  unfold RunRow.scope at hs'
  cases ht : r.threadId <;> cases ht' : r'.threadId <;> simp only [ht, ht', reduceCtorEq] at hs'
  · exact Table.eq_of_mem_of_key_eq hr hr' (CheckpointScope.run.inj hs').symm
  · refine h.active r hr r' hr' (by simp [ht]) ?_ (.inl hrun) (.inl hrun')
    rw [ht, ht', CheckpointScope.thread.inj hs']

/-- Checkpoint fencing, in every run of the service. -/
theorem checkpoint_fencing : (service fun _ => True).TraceInvariant Fenced := by
  intro tr w hexec
  obtain ⟨hexcl, hfence⟩ := fence_trace.holds hexec
  refine ⟨?_, hfence.sorted, ?_, ?_⟩
  · intro l w' k hstep hk
    obtain ⟨q, a, avail, db, rfl, -, hret⟩ := commit_of_accepted hstep hk
    obtain ⟨-, -, scope, r, hr, howns⟩ := accepted_returns hret hk
    obtain ⟨hlast, hrunning, -, hlease⟩ := hfence.owned hr howns
    exact ⟨hlast, r, hr, hrunning, hlease⟩
  · rintro scope k k' ⟨r, hr, howns⟩ ⟨r', hr', howns'⟩
    obtain ⟨hlast, hrunning, -⟩ := hfence.owned hr howns
    obtain ⟨hlast', hrunning', -⟩ := hfence.owned hr' howns'
    simp only [WriterToken.owns, Bool.and_eq_true, decide_eq_true_eq] at howns howns'
    have heq := hexcl.running_unique (Table.mem_of_find? hr) (Table.mem_of_find? hr')
      howns.2 howns'.2 hrunning hrunning'
    have hid : k.runId = k'.runId := by
      rw [← show r.runId = k.runId from Table.key_of_find? hr,
        ← show r'.runId = k'.runId from Table.key_of_find? hr', heq]
    rw [hid, hlast'] at hlast
    exact (Option.some.inj hlast).symm
  · rintro l w₁ id tr' w₂ l' w₃ k hstep hl hsteps hstep' hk hmem rfl
    obtain ⟨q, a, avail, db, rfl, rfl, hret⟩ := commit_of_cancels hstep hl
    have hover := over_inductive (cancels_over (hfence.known k hmem) hret hl) hsteps
    obtain ⟨q', a', avail', db', rfl, -, hret'⟩ := commit_of_accepted hstep' hk
    obtain ⟨-, -, scope, r, hr, howns⟩ := accepted_returns hret' hk
    simp only [WriterToken.owns, Bool.and_eq_true, decide_eq_true_eq] at howns
    have hterminal := hover.ended r hr
    simp [howns.1.1.1.1] at hterminal

end Runs

end GraphHarbor
