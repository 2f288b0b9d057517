import GraphHarbor.Kit.Dict

/-!
# The config of an execution

`run_once` of `production_worker.py` merges the configs, metadata and contexts of the
assistant, the thread and the run into the config of an execution, and `thread_config` of
`graph_executor.py` adds what the server owns.
-/

namespace GraphHarbor

open Kit

/-- What clients supply to an execution. -/
structure ClientJson where
  assistantConfig : Json
  assistantContext : Json
  assistantMetadata : Json
  threadConfig : Json
  runMetadata : Json
  kwargs : Dict

/-- What the server knows of an execution. `thread` is the metadata of the row of the thread,
if there is one. -/
structure RunFacts where
  runId : String
  assistantId : String
  assistantVersion : Int
  graphId : String
  threadId : Option String
  thread : Option Json

/-- The server info of a `Runtime`. -/
structure ServerInfo where
  assistantId : String
  graphId : String
  user : Dict
  deriving DecidableEq, Repr

/-- The config that is passed to a graph. `runtime` is the `Runtime` under `__pregel_runtime`
in `configurable`, the one value there that is not JSON. -/
structure RunnableConfig where
  configurable : Dict
  runtime : Option ServerInfo := none
  metadata : Dict
  tags : Option (List String)
  context : Option Dict
  recursionLimit : Option Json := none
  deriving DecidableEq, Repr

/-! ## `thread_config` -/

/-- The user of a runtime context. -/
def authUser (runtimeContext : Dict) : Dict :=
  ((runtimeContext.get? "auth_user").bind Json.dict?).getD []

/-- The runtime context names a user. -/
def identified (runtimeContext : Dict) : Bool :=
  !runtimeContext.isEmpty && ((authUser runtimeContext).get? "identity").any Json.truthy

def threadConfig (threadId assistantId graphId : String) (configurable metadata : Dict)
    (tags : Option (List String)) (context : Option Dict) (runtimeContext : Dict) :
    RunnableConfig :=
  let configurable :=
    if threadId = "" then configurable else configurable.set "thread_id" (.str threadId)
  if identified runtimeContext then
    let user := authUser runtimeContext
    { configurable := (configurable.set "langgraph_auth_user" (.obj user)).without
        "__pregel_runtime"
      runtime := some { assistantId, graphId, user }
      metadata, tags, context }
  else { configurable, metadata, tags, context }

/-! ## `run_once` -/

namespace ClientJson

variable (client : ClientJson) (facts : RunFacts)

def configSources : List Dict :=
  [client.assistantConfig.dict?, facts.thread.bind fun _ => client.threadConfig.dict?,
    some (((client.kwargs.get? "config").bind Json.dict?).getD [])].reduceOption

/-- The objects under a key of the configs. -/
def sourceParts (key : String) : List Dict :=
  (client.configSources facts).filterMap fun source => (source.get? key).bind Json.dict?

def tagValues : List String :=
  (client.configSources facts).flatMap fun source =>
    match source.get? "tags" with
    | some (.arr items) => items.filterMap fun
        | .str tag => some tag
        | _ => none
    | _ => []

/-- The keys of `configurable` that are not taken from a client. -/
def reservedKeys : List String :=
  ["thread_id", "run_id", "__pregel_runtime", "__graphharbor_runtime_context"]

def drained : Bool := client.kwargs.get? "__graphharbor_resume_after_drain" = some (.bool true)

def configurable : Dict :=
  let merged : Dict := (Dict.merged (client.sourceParts facts "configurable")).filter fun f =>
    f.1 ∉ reservedKeys
  let pinned : Dict := match client.kwargs.get? "checkpoint_id" with
    | some (.str checkpointId) =>
        if checkpointId = "" then merged else merged.set "checkpoint_id" (.str checkpointId)
    | _ => merged
  if client.drained then pinned.without "checkpoint_id" else pinned

def context : Option Dict :=
  let merged := Dict.merged [client.assistantContext.dict?,
    facts.thread.bind fun _ => (client.threadConfig.dict?).bind fun config =>
      (config.get? "context").bind Json.dict?,
    (client.kwargs.get? "context").bind Json.dict?].reduceOption
  if merged.isEmpty then none else some merged

/-- The sources of the metadata in their order; the configs are merged before. -/
def metadataSources : List Dict :=
  [client.assistantMetadata.dict?, facts.thread.bind Json.dict?, client.runMetadata.dict?,
    some (Dict.merged (client.sourceParts facts "metadata")),
    (client.kwargs.get? "metadata").bind Json.dict?].reduceOption

end ClientJson

/-- `THREAD_METADATA_KEY`. -/
def threadMetadataKey : String := "__graphharbor_thread_metadata"

/-- `attach_thread_metadata`. -/
def attachThreadMetadata (metadata threadMetadata : Dict) : Dict :=
  metadata.set threadMetadataKey (.obj threadMetadata)

/-- The identifiers of an execution. -/
def RunFacts.identifiers (facts : RunFacts) (runtimeContext : Dict) : Dict :=
  [("run_id", .str facts.runId), ("thread_id", (facts.threadId.map Json.str).getD .null),
    ("assistant_id", .str facts.assistantId), ("assistant_version", .num facts.assistantVersion),
    ("request_id", (runtimeContext.get? "request_id").getD .null)]

def ClientJson.metadata (client : ClientJson) (facts : RunFacts) (runtimeContext : Dict) : Dict :=
  let metadata := (Dict.merged (client.metadataSources facts)).update
    (facts.identifiers runtimeContext)
  let metadata := match facts.thread.bind Json.dict? with
    | some threadMetadata => attachThreadMetadata metadata threadMetadata
    | none => metadata
  metadata.filter fun f => f.2 ≠ .null

/-- The verification of a token for a run and a thread, and `GRAPHHARBOR_ENV`. -/
structure ContextSource where
  verify : String → String → Option String → Except String Dict
  production : Bool

/-- The runtime context of an execution, or a `RuntimeContextError`. -/
def ContextSource.runtimeContext (source : ContextSource) (facts : RunFacts) (kwargs : Dict) :
    Except String Dict :=
  match kwargs.get? "runtime_context_token" with
  | some (.str token) => source.verify token facts.runId facts.threadId
  | _ =>
      if source.production then .error "signed runtime context is required in production"
      else .ok [("auth_user", .obj [("identity", .str "anonymous")]), ("permissions", .arr [])]

/-- The config of an execution with this runtime context. -/
def ClientJson.config (client : ClientJson) (facts : RunFacts) (runtimeContext : Dict) :
    RunnableConfig :=
  let tags := (client.tagValues facts).eraseDups
  let config := GraphHarbor.threadConfig (facts.threadId.getD facts.runId) facts.assistantId
    facts.graphId (client.configurable facts) (client.metadata facts runtimeContext)
    (if tags.isEmpty then none else some tags) (client.context facts) runtimeContext
  { config with
    recursionLimit := Dict.supplied "recursion_limit" (client.configSources facts) }

/-- `run_once` up to the call of the graph. -/
def ContextSource.executionConfig (source : ContextSource) (facts : RunFacts)
    (client : ClientJson) : Except String RunnableConfig :=
  (source.runtimeContext facts client.kwargs).map (client.config facts)

/-! ## What two executions agree on -/

/-- The keys of `configurable` that the server owns. -/
def serverConfigurable : List String :=
  ["thread_id", "run_id", "langgraph_auth_user", "__pregel_runtime"]

/-- The keys of the metadata that the server owns. -/
def serverMetadata : List String :=
  ["run_id", "thread_id", "assistant_id", "assistant_version", "request_id", threadMetadataKey]

/-- Equal in all that the server owns. -/
structure ServerOwnedAgree (c c' : RunnableConfig) : Prop where
  configurable : ∀ key ∈ serverConfigurable, c.configurable.get? key = c'.configurable.get? key
  runtime : c.runtime = c'.runtime
  metadata : ∀ key ∈ serverMetadata, c.metadata.get? key = c'.metadata.get? key

/-- What the clients give for the user, where no user is identified, and for the metadata of the
thread, where there is no thread, is the same. -/
structure SameSupply (facts : RunFacts) (runtimeContext : Dict) (client client' : ClientJson) :
    Prop where
  authUser : identified runtimeContext = true ∨
    Dict.supplied "langgraph_auth_user" (client.sourceParts facts "configurable") =
      Dict.supplied "langgraph_auth_user" (client'.sourceParts facts "configurable")
  threadMetadata : (facts.thread.bind Json.dict?).isSome = true ∨
    (Dict.supplied threadMetadataKey (client.metadataSources facts)).filter (· ≠ .null) =
      (Dict.supplied threadMetadataKey (client'.metadataSources facts)).filter (· ≠ .null)

/-! ## `configurable` -/

theorem get?_without_self (d : Dict) (key : String) : (d.without key).get? key = none := by
  refine Dict.get?_eq_none fun hmem => ?_
  obtain ⟨f, hf, hkey⟩ := List.mem_map.1 hmem
  exact of_decide_eq_true (List.mem_filter.1 hf).2 hkey

/-- What `configurable` has of a key: nothing if the key is reserved. -/
theorem ClientJson.configurable_get (client : ClientJson) (facts : RunFacts) {key : String}
    (hkey : key ≠ "checkpoint_id") : (client.configurable facts).get? key =
      if key ∉ reservedKeys then Dict.supplied key (client.sourceParts facts "configurable")
      else none := by
  -- after a drain only the checkpoint is taken out
  have hdrained (d : Dict) :
      (if client.drained then d.without "checkpoint_id" else d).get? key = d.get? key := by
    split
    · exact Dict.get?_without_of_ne hkey
    · rfl
  have hmerged : Dict.get? ((Dict.merged (client.sourceParts facts "configurable")).filter
      fun f => f.1 ∉ reservedKeys) key = if key ∉ reservedKeys then
        Dict.supplied key (client.sourceParts facts "configurable") else none := by
    rw [Dict.get?_filter_key fun k => k ∉ reservedKeys, Dict.get?_merged]
    simp only [decide_eq_true_eq]
  unfold ClientJson.configurable
  rw [hdrained]
  split
  · split
    · exact hmerged
    · rw [Dict.get?_set_of_ne hkey]
      exact hmerged
  · exact hmerged

/-- What `thread_config` sets, and that it keeps the other keys. -/
theorem threadConfig_get (threadId assistantId graphId : String) (configurable metadata : Dict)
    (tags : Option (List String)) (context : Option Dict) (runtimeContext : Dict) (key : String) :
    (threadConfig threadId assistantId graphId configurable metadata tags context
      runtimeContext).configurable.get? key =
    if identified runtimeContext = true ∧ key = "__pregel_runtime" then none
    else if identified runtimeContext = true ∧ key = "langgraph_auth_user" then
      some (.obj (authUser runtimeContext))
    else if threadId ≠ "" ∧ key = "thread_id" then some (.str threadId)
    else configurable.get? key := by
  have hthread : (if threadId = "" then configurable
      else configurable.set "thread_id" (.str threadId)).get? key =
        if threadId ≠ "" ∧ key = "thread_id" then some (.str threadId)
        else configurable.get? key := by
    by_cases hempty : threadId = ""
    · rw [if_pos hempty, if_neg fun h => h.1 hempty]
    · rw [if_neg hempty, Dict.get?_set]
      by_cases hkey : key = "thread_id"
      · rw [if_pos hkey, if_pos ⟨hempty, hkey⟩]
      · rw [if_neg hkey, if_neg fun h => hkey h.2]
  unfold threadConfig
  -- with a user the server sets its key and removes the runtime last
  by_cases hid : identified runtimeContext = true
  · simp only [hid, if_true, true_and]
    by_cases hruntime : key = "__pregel_runtime"
    · rw [if_pos hruntime, hruntime]
      exact get?_without_self _ _
    · rw [if_neg hruntime, Dict.get?_without_of_ne hruntime, Dict.get?_set]
      by_cases huser : key = "langgraph_auth_user"
      · rw [if_pos huser, if_pos huser]
      · rw [if_neg huser, if_neg huser]
        exact hthread
  · simp only [hid, false_and, if_false, Bool.false_eq_true]
    exact hthread

/-! ## Metadata -/

namespace ClientJson

variable (client : ClientJson) (facts : RunFacts) (runtimeContext : Dict) {key : String}

/-- The metadata before `None` is dropped. -/
def assembled : Dict :=
  match facts.thread.bind Json.dict? with
  | some threadMetadata =>
      attachThreadMetadata ((Dict.merged (client.metadataSources facts)).update
        (facts.identifiers runtimeContext)) threadMetadata
  | none => (Dict.merged (client.metadataSources facts)).update (facts.identifiers runtimeContext)

theorem metadata_get : (client.metadata facts runtimeContext).get? key =
    ((client.assembled facts runtimeContext).get? key).filter (· ≠ .null) := by
  -- the assembled metadata has each key once, so filtering is done value by value
  have hkeyed : (client.assembled facts runtimeContext).Keyed := by
    unfold assembled
    split
    · exact (Dict.keyed_merged _).update.set
    · exact (Dict.keyed_merged _).update
  exact hkeyed.get?_filter fun value => value ≠ .null

/-- The identifiers of the execution replace what the clients give. -/
theorem assembled_identifier (hkey : key ≠ threadMetadataKey)
    (hset : ((facts.identifiers runtimeContext).last? key).isSome) :
    (client.assembled facts runtimeContext).get? key =
      (facts.identifiers runtimeContext).last? key := by
  have hupdate : ((Dict.merged (client.metadataSources facts)).update
      (facts.identifiers runtimeContext)).get? key =
        (facts.identifiers runtimeContext).last? key := by
    rw [Dict.get?_update, Option.or_of_isSome hset]
  -- the thread metadata is attached after the identifiers, under a key of its own
  unfold assembled
  split
  · unfold attachThreadMetadata
    rw [Dict.get?_set_of_ne hkey]
    exact hupdate
  · exact hupdate

/-- The metadata of the thread replaces what the clients give only if there is a thread. -/
theorem assembled_thread : (client.assembled facts runtimeContext).get? threadMetadataKey =
    match facts.thread.bind Json.dict? with
    | some threadMetadata => some (.obj threadMetadata)
    | none => Dict.supplied threadMetadataKey (client.metadataSources facts) := by
  unfold assembled
  split
  · exact Dict.get?_set_self
  · rw [Dict.get?_update, Dict.get?_merged]
    rfl

end ClientJson

theorem identifiers_set {facts : RunFacts} {runtimeContext : Dict} {key : String}
    (hkey : key ∈ serverMetadata) (hne : key ≠ threadMetadataKey) :
    ((facts.identifiers runtimeContext).last? key).isSome := by
  simp only [serverMetadata, List.mem_cons, List.not_mem_nil, or_false] at hkey
  rcases hkey with rfl | rfl | rfl | rfl | rfl | rfl
  · rfl
  · rfl
  · rfl
  · rfl
  · rfl
  · exact absurd rfl hne

/-! ## Two executions -/

section

variable {facts : RunFacts} {runtimeContext : Dict} {client client' : ClientJson}

theorem config_get (client : ClientJson) (key : String) :
    (client.config facts runtimeContext).configurable.get? key =
      (threadConfig (facts.threadId.getD facts.runId) facts.assistantId facts.graphId
        (client.configurable facts) [] none none runtimeContext).configurable.get? key := by
  rw [threadConfig_get]
  exact threadConfig_get ..

/-- The key of the user aside, `configurable` agrees on what the server owns. -/
theorem configurable_agree {key : String} (hkey : key ∈ serverConfigurable)
    -- reserved keys come from the server only
    (huser : key ≠ "langgraph_auth_user") :
    (client.config facts runtimeContext).configurable.get? key =
      (client'.config facts runtimeContext).configurable.get? key := by
  have hreserved : key ∈ ClientJson.reservedKeys ∧ key ≠ "checkpoint_id" := by
    simp only [serverConfigurable, List.mem_cons, List.not_mem_nil, or_false] at hkey
    rcases hkey with rfl | rfl | rfl | rfl
    · decide
    · decide
    · exact absurd rfl huser
    · decide
  have hnone (client : ClientJson) : (client.configurable facts).get? key = none := by
    rw [client.configurable_get facts hreserved.2, if_neg (not_not_intro hreserved.1)]
  rw [config_get, config_get, threadConfig_get, threadConfig_get, hnone client, hnone client']

/-- The user is what the clients give if the runtime context identifies none. -/
theorem authUser_get (client : ClientJson) :
    (client.config facts runtimeContext).configurable.get? "langgraph_auth_user" =
      if identified runtimeContext then some (.obj (authUser runtimeContext))
      else Dict.supplied "langgraph_auth_user" (client.sourceParts facts "configurable") := by
  have hother : "langgraph_auth_user" ≠ "__pregel_runtime" ∧
      "langgraph_auth_user" ≠ "thread_id" ∧
        "langgraph_auth_user" ∉ ClientJson.reservedKeys ∧
          "langgraph_auth_user" ≠ "checkpoint_id" := by decide
  rw [config_get, threadConfig_get, if_neg fun h => hother.1 h.2]
  by_cases hid : identified runtimeContext = true
  · rw [if_pos ⟨hid, rfl⟩, if_pos hid]
  · rw [if_neg fun h => hid h.1, if_neg hid, if_neg fun h => hother.2.1 h.2,
      client.configurable_get facts hother.2.2.2, if_pos hother.2.2.1]

theorem runtime_agree :
    (client.config facts runtimeContext).runtime =
      (client'.config facts runtimeContext).runtime := by
  unfold ClientJson.config threadConfig
  by_cases hid : identified runtimeContext = true
  · simp only [hid, if_true]
  · simp only [hid, if_false, Bool.false_eq_true]

theorem config_metadata (client : ClientJson) :
    (client.config facts runtimeContext).metadata = client.metadata facts runtimeContext := by
  unfold ClientJson.config threadConfig
  by_cases hid : identified runtimeContext = true
  · simp only [hid, if_true]
  · simp only [hid, if_false, Bool.false_eq_true]

end

/-- Two executions with the same runtime context agree on what the server owns exactly if, where
the server sets no value, their clients give the same. -/
theorem serverOwned_agree_iff (source : ContextSource) (facts : RunFacts)
    (client client' : ClientJson) (runtimeContext : Dict) (c c' : RunnableConfig)
    (hcontext : source.runtimeContext facts client.kwargs = .ok runtimeContext)
    (hcontext' : source.runtimeContext facts client'.kwargs = .ok runtimeContext)
    (h : source.executionConfig facts client = .ok c)
    (h' : source.executionConfig facts client' = .ok c') :
    ServerOwnedAgree c c' ↔ SameSupply facts runtimeContext client client' := by
  obtain rfl : client.config facts runtimeContext = c := by
    unfold ContextSource.executionConfig at h
    rw [hcontext] at h
    exact Except.ok.inj h
  obtain rfl : client'.config facts runtimeContext = c' := by
    unfold ContextSource.executionConfig at h'
    rw [hcontext'] at h'
    exact Except.ok.inj h'
  have hthread (client : ClientJson) :
      (client.config facts runtimeContext).metadata.get? threadMetadataKey =
        Option.filter (· ≠ .null) (match facts.thread.bind Json.dict? with
          | some threadMetadata => some (.obj threadMetadata)
          | none => Dict.supplied threadMetadataKey (client.metadataSources facts)) := by
    rw [config_metadata, client.metadata_get, client.assembled_thread]
  constructor
  -- the two keys that the clients may supply are read off the configs
  · rintro ⟨hconfigurable, -, hmetadata⟩
    refine ⟨?_, ?_⟩
    · have huser := hconfigurable "langgraph_auth_user" (by decide)
      rw [authUser_get, authUser_get] at huser
      by_cases hid : identified runtimeContext = true
      · exact .inl hid
      · rw [if_neg hid, if_neg hid] at huser
        exact .inr huser
    · have hkey := hmetadata threadMetadataKey (by decide)
      rw [hthread, hthread] at hkey
      cases hrow : facts.thread.bind Json.dict? with
      | some threadMetadata => exact .inl rfl
      | none =>
          rw [hrow] at hkey
          exact .inr hkey
  -- for the other keys both configs have what the server sets
  · rintro ⟨huser, hsupply⟩
    refine ⟨fun key hkey => ?_, runtime_agree, fun key hkey => ?_⟩
    · by_cases hauth : key = "langgraph_auth_user"
      · rw [hauth, authUser_get, authUser_get]
        rcases huser with hid | hsame
        · rw [if_pos hid, if_pos hid]
        · rw [hsame]
      · exact configurable_agree hkey hauth
    · by_cases hmeta : key = threadMetadataKey
      · rw [hmeta, hthread, hthread]
        cases hrow : facts.thread.bind Json.dict? with
        | some threadMetadata => rfl
        | none =>
            rw [hrow] at hsupply
            exact hsupply.resolve_left nofun
      · have hset : ((facts.identifiers runtimeContext).last? key).isSome :=
          identifiers_set hkey hmeta
        rw [config_metadata, config_metadata, client.metadata_get, client'.metadata_get,
          client.assembled_identifier facts runtimeContext hmeta hset,
          client'.assembled_identifier facts runtimeContext hmeta hset]

/-- Development without tokens. -/
def developmentSource : ContextSource where
  verify _ _ _ := .error "invalid runtime context token"
  production := false

/-- Facts of a run on a thread with this metadata, or without a thread. -/
def factsOf (thread : Option Dict) : RunFacts where
  runId := "run"
  assistantId := "assistant"
  assistantVersion := 1
  graphId := "graph"
  threadId := thread.map fun _ => "thread"
  thread := thread.map .obj

/-- A client that sends nothing but this config and metadata of the run. -/
def clientOf (config metadata : Dict) : ClientJson where
  assistantConfig := .obj []
  assistantContext := .obj []
  assistantMetadata := .obj []
  threadConfig := .obj []
  runMetadata := .obj metadata
  kwargs := [("config", .obj config)]

/-- A client that tries to replace what the server owns. -/
def forger : ClientJson :=
  clientOf [("configurable", .obj [("thread_id", .str "x"), ("langgraph_auth_user", .str "x")])]
    [("run_id", .str "x"), (threadMetadataKey, .str "x")]

/-- On a thread it does not succeed. -/
theorem serverOwned_agree_thread :
    ∃ c c', developmentSource.executionConfig (factsOf (some [])) (clientOf [] []) = .ok c ∧
      developmentSource.executionConfig (factsOf (some [])) forger = .ok c' ∧
      ServerOwnedAgree c c' := by
  have hsame : SameSupply (factsOf (some []))
      [("auth_user", .obj [("identity", .str "anonymous")]), ("permissions", .arr [])]
      (clientOf [] []) forger := ⟨.inl (by decide +kernel), .inl rfl⟩
  exact ⟨_, _, rfl, rfl, (serverOwned_agree_iff developmentSource (factsOf (some []))
    (clientOf [] []) forger _ _ _ rfl rfl rfl rfl).2 hsame⟩

/-- Without a thread the metadata of a thread is what the client says. -/
theorem threadMetadata_forged :
    ∃ c c', developmentSource.executionConfig (factsOf none) (clientOf [] []) = .ok c ∧
      developmentSource.executionConfig (factsOf none) (clientOf []
        [(threadMetadataKey, .obj [("tenant", .str "x")])]) = .ok c' ∧
      c.metadata.get? threadMetadataKey = none ∧
      c'.metadata.get? threadMetadataKey = some (.obj [("tenant", .str "x")]) ∧
      ¬ ServerOwnedAgree c c' := by
  refine ⟨_, _, rfl, rfl, by decide +kernel, by decide +kernel, fun hagree => ?_⟩
  have hkey := hagree.metadata threadMetadataKey (by decide)
  exact absurd hkey (by decide +kernel)

end GraphHarbor
