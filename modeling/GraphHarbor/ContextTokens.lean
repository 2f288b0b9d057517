import GraphHarbor.Kit.Base64
import GraphHarbor.Kit.PyJson
import Mathlib.Data.List.DropRight
import Mathlib.Data.List.Dedup

/-!
# Runtime context tokens

The execution identity of an accepted run is signed and stored with it; the worker verifies the
token before it executes the run, and takes a `RuntimeContextError` for a run that it must fail.
The HMAC is a parameter: the hexadecimal digest of a message under a secret.
-/

namespace GraphHarbor

open Kit PyStr PyJson
open JsonText (Text Number)

/-- What signing and verifying raise. -/
inductive TokenError
  | runtimeContext (message : String)
  | unicodeEncode
  | value
  | type
  deriving DecidableEq, Repr

/-- The environment; an unset secret is empty. -/
structure TokenConfig where
  secret : PyStr
  issuer : Option PyStr
  audience : Option PyStr
  production : Bool

abbrev Hmac := Text → Text → Text

/-- A key or another literal of the source. -/
def keyOf (s : String) : PyStr := ofString s

/-! ## Texts -/

/-- `c.isspace()`. -/
def isWhite (c : CodePoint) : Bool := isSpace c || 0x1c ≤ c.val && c.val ≤ 0x1f

/-- `s.strip()`. -/
def stripped (s : PyStr) : PyStr := (s.dropWhile isWhite).rdropWhile isWhite

/-- `s.split()`. -/
def words (s : PyStr) : List PyStr := (s.splitOnP isWhite).filter (· ≠ [])

/-- The bytes of a text. -/
def utf8 (t : Text) : List UInt8 := t.flatMap String.utf8EncodeChar

/-- The text of bytes in UTF-8. -/
def utf8Text? (bytes : List UInt8) : Option Text := bytes.toByteArray.utf8Decode?.map Array.toList

/-- `bool(value)`. -/
def truthy : PyJson → Bool
  | .null => false
  | .bool b => b
  | .num n => (n.literal.takeWhile fun c => c ≠ 'e' && c ≠ 'E').any fun c => c.isDigit && c ≠ '0'
  | .str s => !s.isEmpty
  | .arr items => !items.isEmpty
  | .obj members => !members.isEmpty

/-- `context.get(key) or default`. -/
def getOr (context : Members) (key : String) (default : PyJson) : PyJson :=
  match get? context (keyOf key) with
  | some value => if truthy value then value else default
  | none => default

/-- An `int` that is not negative. -/
def isNatural (n : Number) : Bool := n.literal.all Char.isDigit

/-! ## Fields of the context -/

def refuse {α : Type} (message : String) : Except TokenError α := .error (.runtimeContext message)

/-- `_correlation_value`. -/
def correlationValue (value : Option PyJson) (field : String) :
    Except TokenError (Option PyStr) :=
  match value with
  | none | some .null => .ok none
  | some (.str s) =>
      if (stripped s).isEmpty || 256 < s.length then
        refuse s!"runtime context field is invalid: {field}"
      else .ok (some (stripped s))
  | some _ => refuse s!"runtime context field is invalid: {field}"

/-- `_runtime_context_secret`. -/
def runtimeContextSecret (config : TokenConfig) : Except TokenError Text :=
  if (stripped config.secret).isEmpty then
    refuse "runtime context signing secret is not configured"
  else
    match text? (stripped config.secret) with
    | none => .error .unicodeEncode
    | some secret => .ok secret

/-- `isinstance(value, str)`. -/
def isStr : PyJson → Bool
  | .str _ => true
  | _ => false

/-- The stripped name, unless it is empty. -/
def permissionName : PyJson → Option PyStr
  | .str s => if (stripped s).isEmpty then none else some (stripped s)
  | _ => none

/-- `_permission_names`. -/
def permissionNames : PyJson → Except TokenError (List PyStr)
  | .str s => .ok (words s)
  | .arr items =>
      if items.all isStr then .ok (items.filterMap permissionName)
      else refuse "runtime context permissions are invalid"
  | _ => refuse "runtime context permissions are invalid"

/-- `sorted(frozenset(names))`. -/
def sortedNames (names : List PyStr) : List PyStr :=
  names.dedup.insertionSort fun a b => ¬ b < a

def setMember (members : Members) (key : PyStr) (value : PyJson) : Members :=
  members.map fun m => if m.1 = key then (m.1, value) else m

def ofName : Option PyStr → PyJson
  | some s => .str s
  | none => .null

/-- `_auth_user_mapping`. -/
def authUserMapping : PyJson → Except TokenError Members
  | .obj members =>
      if membersHaveLong members then refuse "custom auth user must be JSON-compatible"
      else
        match members? members with
        | none => .error .unicodeEncode
        | some user =>
            if 65536 < (utf8 (JsonText.Value.obj user).dumps).length then
              refuse "custom auth user exceeds 65536 bytes"
            else
              match get? members (keyOf "request_id") with
              | none => .ok members
              | some value => do
                  let id ← correlationValue (some value) "custom auth user request_id"
                  pure (setMember members (keyOf "request_id") (ofName id))
  | _ => refuse "custom auth user must be a JSON object"

/-- `int(time.time())`. -/
structure Clock where
  now : Number
  natural : isNatural now = true
  short : isLong now = false

/-- The checked `context.get("accepted_at", now)`. -/
def acceptedAt (clock : Clock) : Option PyJson → Except TokenError Number
  | none => .ok clock.now
  | some (.num n) =>
      if isNatural n then .ok n else refuse "runtime context acceptance time is invalid"
  | some _ => refuse "runtime context acceptance time is invalid"

/-- `_RUNTIME_CONTEXT_FIELDS`. -/
def contextFields : List PyStr :=
  [keyOf "accepted_at", keyOf "permissions", keyOf "auth_user", keyOf "request_id"]

/-- The values of a context that is signed. -/
def valuesOf (accepted : Number) (names : List PyStr) (user : Members) (id : Option PyStr) :
    Members :=
  [(keyOf "accepted_at", .num accepted), (keyOf "permissions", .arr (names.map .str)),
    (keyOf "auth_user", .obj user)] ++ id.toList.map fun s => (keyOf "request_id", .str s)

/-- `context_values` of `sign_runtime_context`, and the acceptance time. -/
def contextValues (clock : Clock) (context : Members) : Except TokenError (Number × Members) :=
  if !(keys context).all (· ∈ contextFields) then
    refuse "runtime context contains unknown fields"
  else do
    let names ← permissionNames (getOr context "permissions" (.arr []))
    let user ← authUserMapping (getOr context "auth_user" (.obj []))
    if keyOf "identity" ∉ keys user then refuse "runtime context auth_user requires identity"
    else do
      let accepted ← acceptedAt clock (get? context (keyOf "accepted_at"))
      let id ← correlationValue (get? context (keyOf "request_id")) "request_id"
      pure (accepted, valuesOf accepted (sortedNames names) user id)

/-! ## Signing -/

/-- `bool(value)` of a setting. -/
def isSet (value : Option PyStr) : Bool := value.any fun s => !s.isEmpty

/-- The literal `2`. -/
def two : Number := ⟨['2'], by decide⟩

def claimsOf (accepted : Number) (values : Members) (runId : PyStr) (threadId : Option PyStr) :
    Members :=
  [(keyOf "v", .num two), (keyOf "accepted_at", .num accepted), (keyOf "run_id", .str runId),
    (keyOf "thread_id", ofName threadId), (keyOf "context", .obj values)]

/-- The claims of the issuer and the audience. -/
def standardClaims (config : TokenConfig) : Except TokenError Members :=
  if isSet config.issuer != isSet config.audience then
    refuse "runtime context issuer and audience must be configured together"
  else if config.production && !isSet config.issuer then
    refuse "runtime context issuer and audience are required in production"
  else if isSet config.issuer && isSet config.audience then
    .ok [(keyOf "iss", ofName config.issuer), (keyOf "aud", ofName config.audience)]
  else .ok []

/-- `_b64_json`. -/
def b64Json (value : PyJson) : Except TokenError Text :=
  if hasLong value then .error .value
  else
    match value? (sortKeys value) with
    | none => .error .unicodeEncode
    | some v => .ok (Base64.encode (utf8 v.dumps))

/-- The claims that `sign_runtime_context` encodes. -/
def signedClaims (config : TokenConfig) (clock : Clock) (context : Members) (runId : PyStr)
    (threadId : Option PyStr) : Except TokenError Members := do
  let (accepted, values) ← contextValues clock context
  let standard ← standardClaims config
  pure (claimsOf accepted values runId threadId ++ standard)

/-- `sign_runtime_context`. -/
def signRuntimeContext (hmac : Hmac) (config : TokenConfig) (clock : Clock) (context : Members)
    (runId : PyStr) (threadId : Option PyStr) : Except TokenError PyStr := do
  let claims ← signedClaims config clock context runId threadId
  let encoded ← b64Json (.obj claims)
  let secret ← runtimeContextSecret config
  pure (ofText encoded ++ ofChar '.' :: ofText (hmac secret encoded))

/-! ## Verifying -/

/-- `_decode_b64_json`. -/
def decodeB64Json (value : Text) : Except TokenError Members :=
  match ((Base64.decode (value ++ Base64.padding value)).bind utf8Text?).bind JsonText.loads with
  | none => refuse "invalid runtime context encoding"
  | some v =>
      if hasLong (ofValue v) then refuse "invalid runtime context encoding"
      else
        match ofValue v with
        | .obj members => .ok members
        | _ => refuse "runtime context payload must be an object"

/-- `hmac.compare_digest`, of two strings. -/
def compareDigest (a b : PyStr) : Except TokenError Bool :=
  if a.all (fun c => c.val < 128) && b.all (fun c => c.val < 128) then .ok (a = b)
  else .error .type

/-- `set(members) == expected`. -/
def hasKeys (members : Members) (expected : List PyStr) : Bool :=
  (keys members).all (· ∈ expected) && expected.all (· ∈ keys members)

def isText (value : Option PyJson) (s : PyStr) : Bool :=
  match value with
  | some (.str t) => t = s
  | _ => false

/-- `value == (str(thread_id) if thread_id is not None else None)`. -/
def isThread (value : Option PyJson) (threadId : Option PyStr) : Bool :=
  match threadId with
  | some t => isText value t
  | none =>
      match value with
      | none | some .null => true
      | _ => false

/-- `value == n`, where integers are compared. -/
def equalsNumber (value : Option PyJson) (n : Number) : Bool :=
  match value with
  | some (.num m) => m.literal = n.literal
  | some (.bool b) => n.literal = if b then ['1'] else ['0']
  | _ => false

def naturalOf (value : Option PyJson) : Option Number :=
  match value with
  | some (.num n) => if isNatural n then some n else none
  | _ => none

def allTexts (value : Option PyJson) : Bool :=
  match value with
  | some (.arr items) => items.all isStr
  | _ => false

/-- The checks of the context of verified claims. -/
def verifyContext (accepted : Number) (context : Option PyJson) : Except TokenError Members :=
  match context with
  | some (.obj members) =>
      let fields := [keyOf "accepted_at", keyOf "permissions", keyOf "auth_user"] ++
        if keyOf "request_id" ∈ keys members then [keyOf "request_id"] else []
      if !hasKeys members fields then refuse "runtime context fields are invalid"
      else if !equalsNumber (get? members (keyOf "accepted_at")) accepted then
        refuse "runtime context acceptance time is invalid"
      else if !allTexts (get? members (keyOf "permissions")) then
        refuse "runtime context permissions are invalid"
      else do
        let _ ← correlationValue (get? members (keyOf "request_id")) "request_id"
        pure members
  | _ => refuse "runtime context fields are invalid"

/-- Whether `iss` and `aud` must be among the claims. -/
def requiresStandardClaims (config : TokenConfig) : Bool :=
  isSet config.issuer || isSet config.audience || config.production

/-- The checks of decoded claims. -/
def verifyClaims (config : TokenConfig) (claims : Members) (runId : PyStr)
    (threadId : Option PyStr) : Except TokenError Members :=
  let standard := requiresStandardClaims config
  let expected := [keyOf "v", keyOf "accepted_at", keyOf "run_id", keyOf "thread_id",
    keyOf "context"] ++ if standard then [keyOf "iss", keyOf "aud"] else []
  if standard && (!isSet config.issuer || !isSet config.audience) then
    refuse "runtime context issuer and audience are required"
  else if !hasKeys claims expected then refuse "runtime context contains unknown claims"
  else if standard && (!isText (get? claims (keyOf "iss")) (config.issuer.getD []) ||
      !isText (get? claims (keyOf "aud")) (config.audience.getD [])) then
    refuse "runtime context issuer or audience does not match"
  else
    match naturalOf (get? claims (keyOf "accepted_at")) with
    | none => refuse "runtime context version is unsupported"
    | some accepted =>
        if !equalsNumber (get? claims (keyOf "v")) two then
          refuse "runtime context version is unsupported"
        else if !isText (get? claims (keyOf "run_id")) runId ||
            !isThread (get? claims (keyOf "thread_id")) threadId then
          refuse "runtime context resource does not match the run"
        else verifyContext accepted (get? claims (keyOf "context"))

/-- `verify_runtime_context_envelope`. -/
def verifyRuntimeContext (hmac : Hmac) (config : TokenConfig) (token runId : PyStr)
    (threadId : Option PyStr) : Except TokenError Members :=
  match splitOnce (ofChar '.') token with
  | none => refuse "invalid runtime context token"
  | some (encoded, signature) => do
      let secret ← runtimeContextSecret config
      match text? encoded with
      | none => .error .unicodeEncode
      | some text =>
          if ← compareDigest signature (ofText (hmac secret text)) then do
            let claims ← decodeB64Json text
            verifyClaims config claims runId threadId
          else refuse "invalid runtime context signature"

variable {hmac : Hmac} {config : TokenConfig} {clock : Clock} {context values members : Members}
  {runId : PyStr} {threadId : Option PyStr} {accepted : Number} {names : List PyStr}
  {user standard : Members} {id : Option PyStr} {text secret : Text} {token : PyStr}

/-! ## The encoding -/

theorem utf8Text?_utf8 (t : Text) : utf8Text? (utf8 t) = some t := by
  have hdecode : t.utf8Encode.utf8Decode? = some t.toArray := List.utf8Decode?_utf8Encode
  show t.utf8Encode.utf8Decode?.map Array.toList = _
  rw [hdecode]
  rfl

/-- The members of an encoded object come back in the order of their keys. -/
theorem decode_b64Json (h : b64Json (.obj members) = .ok text) :
    decodeB64Json text = .ok (sorted members) ∧ ∀ c ∈ text, c.toNat < 128 ∧ c ≠ '.' := by
  unfold b64Json at h
  split at h
  · exact nomatch h
  next hshort =>
  split at h
  · exact nomatch h
  next v hv =>
  obtain rfl := Except.ok.inj h
  refine ⟨?_, Base64.encode_ascii _⟩
  unfold decodeB64Json
  rw [Base64.decode_encode, Option.bind_some, utf8Text?_utf8, Option.bind_some,
    JsonText.loads_dumps]
  dsimp only
  rw [ofValue_of_value? _ hv, hasLong_sortKeys, if_neg hshort]
  rfl

theorem hasKeys_sorted (members : Members) (expected : List PyStr) :
    hasKeys (sorted members) expected = hasKeys members expected := by
  have hperm := keys_sorted members
  unfold hasKeys
  rw [hperm.all_eq]
  congr 1
  rw [Bool.eq_iff_iff, List.all_eq_true, List.all_eq_true]
  exact forall_congr' fun k => by rw [decide_eq_true_eq, decide_eq_true_eq, hperm.mem_iff]

/-! ## Claims that were signed -/

theorem stripped_stripped (s : PyStr) : stripped (stripped s) = stripped s := by
  unfold stripped
  cases hbody : (s.dropWhile isWhite).rdropWhile isWhite with
  | nil => rfl
  | cons c rest =>
      -- the first character is that of `s` after its white space
      have hprefix := List.rdropWhile_prefix isWhite (s.dropWhile isWhite)
      rw [hbody] at hprefix
      obtain ⟨tail, htail⟩ := hprefix
      have hhead : isWhite c = false := by
        have hdrop : (s.dropWhile isWhite).head? = some c := by
          rw [← htail]
          rfl
        have hnot := List.head?_dropWhile_not isWhite s
        rw [hdrop] at hnot
        exact hnot
      rw [List.dropWhile_cons_of_neg (by rw [hhead]; exact Bool.false_ne_true), ← hbody]
      exact List.rdropWhile_idempotent isWhite _

theorem stripped_of_not_white {s : PyStr} (h : ∀ c ∈ s, isWhite c = false) : stripped s = s := by
  have hdrop : s.dropWhile isWhite = s := by
    cases s with
    | nil => rfl
    | cons c s => exact List.dropWhile_cons_of_neg (by simp [h c List.mem_cons_self])
  unfold stripped
  rw [hdrop, List.rdropWhile_eq_self_iff]
  exact fun hne => by simp [h _ (List.getLast_mem hne)]

theorem words_not_white {s name : PyStr} (h : name ∈ words s) : ∀ c ∈ name, isWhite c = false := by
  have hsplit : ∀ s : PyStr, ∀ name ∈ s.splitOnP isWhite, ∀ c ∈ name, isWhite c = false := by
    intro s
    induction s with
    | nil => simp
    | cons c s ih =>
        intro name hname
        rw [List.splitOnP_cons_eq_if_modifyHead] at hname
        split at hname
        · rcases List.mem_cons.1 hname with rfl | hname
          · exact nofun
          · exact ih name hname
        · next hc =>
            -- the character goes to the first word
            cases hs : s.splitOnP isWhite with
            | nil => exact absurd hs (List.splitOnP_ne_nil _ _)
            | cons first rest =>
                rw [hs] at hname ih
                rcases List.mem_cons.1 hname with rfl | hname
                · intro d hd
                  rcases List.mem_cons.1 hd with rfl | hd
                  · exact Bool.eq_false_of_not_eq_true hc
                  · exact ih first List.mem_cons_self d hd
                · exact ih name (List.mem_cons_of_mem _ hname)
  exact hsplit s name (List.mem_of_mem_filter h)

/-- A correlation value that was taken over. -/
def Correlated (id : Option PyStr) : Prop :=
  ∀ s, id = some s → stripped s = s ∧ s ≠ [] ∧ s.length ≤ 256

theorem correlationValue_ok {value : Option PyJson} {field : String}
    (h : correlationValue value field = .ok id) : Correlated id := by
  have hnone : Correlated none := nofun
  unfold correlationValue at h
  split at h
  · obtain rfl := Except.ok.inj h
    exact hnone
  · obtain rfl := Except.ok.inj h
    exact hnone
  · next s =>
      split at h
      · exact nomatch h
      next hvalid =>
      obtain rfl := Except.ok.inj h
      rw [Bool.or_eq_true, not_or, decide_eq_true_eq, List.isEmpty_iff, not_lt] at hvalid
      intro t ht
      obtain rfl := Option.some.inj ht
      refine ⟨stripped_stripped s, hvalid.1, le_trans ?_ hvalid.2⟩
      exact ((List.rdropWhile_prefix _ _).length_le).trans (List.dropWhile_suffix _).length_le
  · exact nomatch h

theorem correlationValue_correlated (h : Correlated id) (field : String) :
    correlationValue (id.map .str) field = .ok id := by
  cases id with
  | none => rfl
  | some s =>
      obtain ⟨hstripped, hne, hlength⟩ := h s rfl
      show (if (stripped s).isEmpty || 256 < s.length then _ else _) = _
      rw [hstripped, if_neg]
      rw [Bool.or_eq_true, not_or, decide_eq_true_eq, List.isEmpty_iff, not_lt]
      exact ⟨hne, hlength⟩

theorem bind_ok {α β : Type} {x : Except TokenError α} {f : α → Except TokenError β} {b : β} :
    (x >>= f) = .ok b ↔ ∃ a, x = .ok a ∧ f a = .ok b := by
  cases x with
  | error e => exact iff_of_false nofun fun ⟨_, h, _⟩ => nomatch h
  | ok a => exact ⟨fun h => ⟨a, rfl, h⟩, fun ⟨_, ha, h⟩ => Except.ok.inj ha ▸ h⟩

theorem refuse_else {α : Type} {c : Prop} [Decidable c] {message : String}
    {x : Except TokenError α} {a : α} :
    (if c then refuse message else x) = .ok a ↔ ¬ c ∧ x = .ok a := by
  by_cases hc : c
  · rw [if_pos hc]
    exact iff_of_false nofun fun h => h.1 hc
  · rw [if_neg hc]
    exact (and_iff_right hc).symm

/-- The values of a context that passes all checks. -/
structure Normal (clock : Clock) (context : Members) (accepted : Number) (names : List PyStr)
    (user : Members) (id : Option PyStr) : Prop where
  fields : (keys context).all (· ∈ contextFields) = true
  permissions : permissionNames (getOr context "permissions" (.arr [])) = .ok names
  mapping : authUserMapping (getOr context "auth_user" (.obj [])) = .ok user
  identity : keyOf "identity" ∈ keys user
  acceptance : acceptedAt clock (get? context (keyOf "accepted_at")) = .ok accepted
  correlation : correlationValue (get? context (keyOf "request_id")) "request_id" = .ok id

theorem contextValues_ok_iff : contextValues clock context = .ok (accepted, values) ↔
    ∃ names user id, Normal clock context accepted names user id ∧
      values = valuesOf accepted (sortedNames names) user id := by
  unfold contextValues
  constructor
  · intro h
    obtain ⟨hfields, h⟩ := refuse_else.1 h
    obtain ⟨names, hnames, h⟩ := bind_ok.1 h
    obtain ⟨user, huser, h⟩ := bind_ok.1 h
    obtain ⟨hidentity, h⟩ := refuse_else.1 h
    obtain ⟨n, hn, h⟩ := bind_ok.1 h
    obtain ⟨id, hid, h⟩ := bind_ok.1 h
    obtain ⟨rfl, rfl⟩ := Prod.mk.inj (Except.ok.inj h)
    rw [Bool.not_eq_true', Bool.not_eq_false] at hfields
    exact ⟨names, user, id, ⟨hfields, hnames, huser, not_not.1 hidentity, hn, hid⟩, rfl⟩
  · rintro ⟨names, user, id, ⟨hfields, hnames, huser, hidentity, hn, hid⟩, rfl⟩
    rw [hfields, hnames, huser, hn, hid]
    show (if keyOf "identity" ∉ keys user then _ else _) = _
    rw [if_neg (not_not.2 hidentity)]
    rfl

theorem acceptedAt_natural {value : Option PyJson} (h : acceptedAt clock value = .ok accepted) :
    isNatural accepted = true := by
  unfold acceptedAt at h
  split at h
  · obtain rfl := Except.ok.inj h
    exact clock.natural
  · split at h
    · next hnatural =>
        obtain rfl := Except.ok.inj h
        exact hnatural
    · exact nomatch h
  · exact nomatch h

/-- What the values of an accepted context are. -/
theorem contextValues_ok (h : contextValues clock context = .ok (accepted, values)) :
    ∃ names user id, values = valuesOf accepted names user id ∧ isNatural accepted = true ∧
      Correlated id := by
  obtain ⟨names, user, id, hnormal, rfl⟩ := contextValues_ok_iff.1 h
  exact ⟨_, user, id, rfl, acceptedAt_natural hnormal.acceptance,
    correlationValue_ok hnormal.correlation⟩

theorem valuesOf_nodup : (keys (valuesOf accepted names user id)).Nodup := by
  cases id with
  | none =>
      show [keyOf "accepted_at", keyOf "permissions", keyOf "auth_user"].Nodup
      decide
  | some s =>
      show [keyOf "accepted_at", keyOf "permissions", keyOf "auth_user", keyOf "request_id"].Nodup
      decide

/-- The checks of the context pass for signed values. -/
theorem verifyContext_signed (hid : Correlated id) :
    verifyContext accepted (some (.obj (sorted (valuesOf accepted names user id)))) =
      .ok (sorted (valuesOf accepted names user id)) := by
  have hget (k : PyStr) : get? (sorted (valuesOf accepted names user id)) k =
      (get? (valuesOf accepted names user id) k).map sortKeys := get?_sorted valuesOf_nodup
  have haccepted : get? (sorted (valuesOf accepted names user id)) (keyOf "accepted_at") =
      some (.num accepted) := hget _
  have hnames : get? (sorted (valuesOf accepted names user id)) (keyOf "permissions") =
      some (.arr (sortItems (names.map .str))) := hget _
  have htexts : allTexts (some (.arr (sortItems (names.map .str)))) = true := by
    show (sortItems (names.map .str)).all isStr = true
    rw [sortItems_eq, List.map_map, List.all_map, List.all_eq_true]
    exact fun _ _ => rfl
  have hrequest : get? (sorted (valuesOf accepted names user id)) (keyOf "request_id") =
      id.map .str := by
    rw [hget]
    cases id <;> rfl
  have hfields : hasKeys (sorted (valuesOf accepted names user id))
      ([keyOf "accepted_at", keyOf "permissions", keyOf "auth_user"] ++
        if keyOf "request_id" ∈ keys (sorted (valuesOf accepted names user id)) then
          [keyOf "request_id"] else []) = true := by
    rw [hasKeys_sorted]
    simp only [(keys_sorted (valuesOf accepted names user id)).mem_iff]
    cases id with
    | none => exact of_decide_eq_true rfl
    | some s => exact of_decide_eq_true rfl
  have hnumber : equalsNumber (some (.num accepted)) accepted = true := decide_eq_true rfl
  unfold verifyContext
  dsimp only
  rw [hfields, haccepted, hnumber, hnames, htexts, hrequest, correlationValue_correlated hid]
  rfl

theorem isSet_some {value : Option PyStr} (h : isSet value = true) : ∃ s, value = some s := by
  cases value with
  | none => exact nomatch h
  | some s => exact ⟨s, rfl⟩

/-- The issuer and the audience are both claimed, or neither is set. -/
theorem standardClaims_ok (h : standardClaims config = .ok standard) :
    (∃ i a, config.issuer = some i ∧ config.audience = some a ∧ isSet (some i) = true ∧
      isSet (some a) = true ∧ standard = [(keyOf "iss", .str i), (keyOf "aud", .str a)]) ∨
    requiresStandardClaims config = false ∧ standard = [] := by
  unfold standardClaims at h
  split at h
  · exact nomatch h
  next hsame =>
  split at h
  · exact nomatch h
  next hproduction =>
  have hequal : isSet config.issuer = isSet config.audience := by
    by_contra hne
    exact hsame (bne_iff_ne.2 hne)
  split at h
  · next hset =>
      obtain rfl := Except.ok.inj h
      obtain ⟨hi, ha⟩ := (Bool.and_eq_true _ _).mp hset
      obtain ⟨i, hissuer⟩ := isSet_some hi
      obtain ⟨a, haudience⟩ := isSet_some ha
      rw [hissuer] at hi
      rw [haudience] at ha
      rw [hissuer, haudience]
      exact .inl ⟨i, a, rfl, rfl, hi, ha, rfl⟩
  · next hset =>
      obtain rfl := Except.ok.inj h
      rw [← hequal, Bool.and_self, Bool.not_eq_true] at hset
      rw [hset, Bool.not_false, Bool.and_true, Bool.not_eq_true] at hproduction
      refine .inr ⟨?_, rfl⟩
      unfold requiresStandardClaims
      rw [← hequal, hset, hproduction]
      rfl

/-- The claims of a signature, with those of its issuer. -/
def allClaims (accepted : Number) (values : Members) (runId : PyStr) (threadId : Option PyStr)
    (standard : Members) : Members := claimsOf accepted values runId threadId ++ standard

theorem allClaims_nodup (h : standardClaims config = .ok standard) :
    (keys (allClaims accepted values runId threadId standard)).Nodup := by
  rcases standardClaims_ok h with ⟨i, a, -, -, -, -, rfl⟩ | ⟨-, rfl⟩
  · show [keyOf "v", keyOf "accepted_at", keyOf "run_id", keyOf "thread_id", keyOf "context",
      keyOf "iss", keyOf "aud"].Nodup
    decide
  · show [keyOf "v", keyOf "accepted_at", keyOf "run_id", keyOf "thread_id",
      keyOf "context"].Nodup
    decide

/-- The required claims are those that were signed. -/
theorem hasKeys_allClaims (h : standardClaims config = .ok standard) (required : Bool) :
    hasKeys (allClaims accepted values runId threadId standard) ([keyOf "v",
      keyOf "accepted_at", keyOf "run_id", keyOf "thread_id", keyOf "context"] ++
        if required then [keyOf "iss", keyOf "aud"] else []) =
      (required == !standard.isEmpty) := by
  rcases standardClaims_ok h with ⟨i, a, -, -, -, -, rfl⟩ | ⟨-, rfl⟩
  · cases required
    · show hasKeys (allClaims _ _ _ _ _) [keyOf "v", keyOf "accepted_at", keyOf "run_id",
        keyOf "thread_id", keyOf "context"] = false
      rfl
    · rfl
  · cases required
    · rfl
    · rfl

theorem isThread_ofName {t : Option PyStr} :
    isThread (some (ofName threadId)) t = decide (threadId = t) := by
  cases t with
  | none => cases threadId <;> rfl
  | some t =>
      cases threadId with
      | none => rfl
      | some s =>
          show decide (s = t) = decide (some s = some t)
          rw [Bool.eq_iff_iff, decide_eq_true_eq, decide_eq_true_eq, Option.some.injEq]

/-- Signed claims are verified for their run and thread only. -/
theorem verifyClaims_allClaims (h : standardClaims config = .ok standard)
    (hnatural : isNatural accepted = true) (hid : Correlated id) (r : PyStr) (t : Option PyStr) :
    verifyClaims config (sorted (allClaims accepted (valuesOf accepted names user id) runId threadId
        standard)) r t =
      if runId = r ∧ threadId = t then .ok (sorted (valuesOf accepted names user id))
      else refuse "runtime context resource does not match the run" := by
  have hget (k : PyStr) : get? (sorted (allClaims accepted (valuesOf accepted names user id) runId
      threadId standard)) k = (get? (allClaims accepted (valuesOf accepted names user id) runId
        threadId standard) k).map sortKeys := get?_sorted (allClaims_nodup h)
  have hkeys := hasKeys_sorted (allClaims accepted (valuesOf accepted names user id) runId threadId
    standard)
  have haccepted : naturalOf (get? (sorted (allClaims accepted (valuesOf accepted names user id)
      runId threadId standard)) (keyOf "accepted_at")) = some accepted := by
    rw [hget]
    show (if isNatural accepted then some accepted else none) = _
    rw [if_pos hnatural]
  have hversion : equalsNumber (get? (sorted (allClaims accepted (valuesOf accepted names user id)
      runId threadId standard)) (keyOf "v")) two = true := by
    rw [hget]
    rfl
  have hrun : isText (get? (sorted (allClaims accepted (valuesOf accepted names user id)
      runId threadId standard)) (keyOf "run_id")) r = decide (runId = r) := by
    rw [hget]
    rfl
  have hthread : isThread (get? (sorted (allClaims accepted (valuesOf accepted names user id)
      runId threadId standard)) (keyOf "thread_id")) t = decide (threadId = t) := by
    rw [hget, ← isThread_ofName]
    cases threadId <;> rfl
  have hcontext : get? (sorted (allClaims accepted (valuesOf accepted names user id) runId threadId
      standard)) (keyOf "context") = some (.obj (sorted (valuesOf accepted names user id))) := by
    rw [hget]
    rfl
  -- the settings are those under which the claims were signed
  have hrequired : (requiresStandardClaims config == !standard.isEmpty) = true ∧
      (requiresStandardClaims config && (!isSet config.issuer || !isSet config.audience)) = false ∧
      (requiresStandardClaims config &&
        (!isText (get? (sorted (allClaims accepted (valuesOf accepted names user id) runId threadId
            standard)) (keyOf "iss")) (config.issuer.getD []) ||
          !isText (get? (sorted (allClaims accepted (valuesOf accepted names user id) runId threadId
            standard)) (keyOf "aud")) (config.audience.getD []))) = false := by
    rw [hget, hget]
    rcases standardClaims_ok h with ⟨i, a, hissuer, haudience, hi, ha, rfl⟩ | ⟨hnone, rfl⟩
    · have hset : requiresStandardClaims config = true := by
        unfold requiresStandardClaims
        rw [hissuer, hi]
        rfl
      have hiss : isText (some (.str i)) i = true := decide_eq_true rfl
      have haud : isText (some (.str a)) a = true := decide_eq_true rfl
      rw [hset, hissuer, haudience, hi, ha]
      refine ⟨rfl, rfl, ?_⟩
      show (true && (!isText (some (.str i)) i || !isText (some (.str a)) a)) = false
      rw [hiss, haud]
      rfl
    · rw [hnone]
      exact ⟨rfl, rfl, rfl⟩
  unfold verifyClaims
  dsimp only
  rw [hrequired.2.1, hkeys, hasKeys_allClaims h, hrequired.1, hrequired.2.2, haccepted]
  simp only [hversion, hrun, hthread, hcontext, verifyContext_signed hid, Bool.false_eq_true,
    if_false, Bool.not_true, Bool.or_eq_true, Bool.not_eq_true', decide_eq_false_iff_not]
  by_cases hboth : runId = r ∧ threadId = t
  · rw [if_pos hboth, if_neg (by rintro (hne | hne) <;> exact hne (by tauto))]
  · rw [if_neg hboth, if_pos (by tauto)]

/-- Claims that another configuration accepts are those that it would sign. -/
theorem standardClaims_of_verified {other : TokenConfig}
    (h : standardClaims config = .ok standard) {r : PyStr} {t : Option PyStr}
    (hverified : verifyClaims other
      (sorted (allClaims accepted values runId threadId standard)) r t = .ok members) :
    standardClaims other = .ok standard := by
  have hget (k : PyStr) : get? (sorted (allClaims accepted values runId threadId standard)) k =
      (get? (allClaims accepted values runId threadId standard) k).map sortKeys :=
    get?_sorted (allClaims_nodup h)
  unfold verifyClaims at hverified
  dsimp only at hverified
  obtain ⟨hsettings, hverified⟩ := refuse_else.1 hverified
  obtain ⟨hkeys, hverified⟩ := refuse_else.1 hverified
  obtain ⟨hmatch, -⟩ := refuse_else.1 hverified
  rw [hasKeys_sorted, hasKeys_allClaims h, Bool.not_eq_true', Bool.not_eq_false,
    beq_iff_eq] at hkeys
  rw [hget, hget] at hmatch
  rcases standardClaims_ok h with ⟨i, a, -, -, -, -, rfl⟩ | ⟨-, rfl⟩
  · have hrequired : requiresStandardClaims other = true := hkeys
    rw [hrequired, Bool.true_and, Bool.not_eq_true, Bool.or_eq_false_iff, Bool.not_eq_false',
      Bool.not_eq_false'] at hsettings hmatch
    obtain ⟨issuer, hissuer⟩ := isSet_some hsettings.1
    obtain ⟨audience, haudience⟩ := isSet_some hsettings.2
    have hi : i = issuer := by
      have htext := hmatch.1
      rw [hissuer] at htext
      exact of_decide_eq_true htext
    have ha : a = audience := by
      have htext := hmatch.2
      rw [haudience] at htext
      exact of_decide_eq_true htext
    unfold standardClaims
    rw [hsettings.1, hsettings.2, hissuer, haudience, hi, ha, Bool.and_self, Bool.not_true,
      Bool.and_false]
    rfl
  · have hrequired : requiresStandardClaims other = false := hkeys
    unfold requiresStandardClaims at hrequired
    rw [Bool.or_eq_false_iff, Bool.or_eq_false_iff] at hrequired
    obtain ⟨⟨hi, ha⟩, hproduction⟩ := hrequired
    unfold standardClaims
    rw [hi, ha, hproduction]
    rfl

/-! ### The permissions -/

/-- A permission is a stripped name and not empty. -/
theorem permissionNames_ok {value : PyJson} {names : List PyStr}
    (h : permissionNames value = .ok names) : ∀ name ∈ names, stripped name = name ∧ name ≠ [] := by
  unfold permissionNames at h
  intro name hname
  split at h
  · next s =>
      obtain rfl := Except.ok.inj h
      exact ⟨stripped_of_not_white (words_not_white hname),
        of_decide_eq_true (List.mem_filter.1 hname).2⟩
  · next items =>
      split at h
      · obtain rfl := Except.ok.inj h
        obtain ⟨item, -, hitem⟩ := List.mem_filterMap.1 hname
        cases item with
        | str s =>
            obtain ⟨hne, heq⟩ := Option.ite_none_left_eq_some.1 hitem
            obtain rfl := Option.some.inj heq
            exact ⟨stripped_stripped s, by simpa using hne⟩
        | null | bool | num | arr | obj => exact nomatch hitem
      · exact nomatch h
  · exact nomatch h

theorem mem_sortedNames {names : List PyStr} {name : PyStr} :
    name ∈ sortedNames names ↔ name ∈ names := by
  unfold sortedNames
  rw [List.mem_insertionSort, List.mem_dedup]

theorem sortedNames_strict (names : List PyStr) : (sortedNames names).Pairwise (· < ·) := by
  have hle : (fun a b : PyStr => ¬ b < a) = (· ≤ ·) := by
    funext a b
    exact propext not_lt
  have hsorted : (sortedNames names).Pairwise (· ≤ ·) := by
    unfold sortedNames
    simp only [hle]
    exact List.pairwise_insertionSort _ _
  have hnodup : (sortedNames names).Nodup :=
    (List.perm_insertionSort _ _).nodup_iff.2 (List.nodup_dedup names)
  exact (hsorted.and hnodup).imp fun h => lt_of_le_of_ne h.1 h.2

/-- The permissions of a context that passes: stripped, in strictly ascending order. -/
theorem contextValues_permissions (h : contextValues clock context = .ok (accepted, values)) :
    ∃ names : List PyStr, get? values (keyOf "permissions") = some (.arr (names.map .str)) ∧
      names.Pairwise (· < ·) ∧ ∀ name ∈ names, stripped name = name ∧ name ≠ [] := by
  obtain ⟨names, user, id, hnormal, rfl⟩ := contextValues_ok_iff.1 h
  refine ⟨sortedNames names, rfl, sortedNames_strict names, fun name hname => ?_⟩
  exact permissionNames_ok hnormal.permissions name (mem_sortedNames.1 hname)

/-! ## Tokens -/

/-- The token of an encoded text. -/
def tokenOf (hmac : Hmac) (secret text : Text) : PyStr :=
  ofText text ++ ofChar '.' :: ofText (hmac secret text)

/-- What a signed token is made of. -/
theorem signRuntimeContext_ok
    (h : signRuntimeContext hmac config clock context runId threadId = .ok token) :
    ∃ accepted names user id standard text secret,
      contextValues clock context = .ok (accepted, valuesOf accepted names user id) ∧
      isNatural accepted = true ∧ Correlated id ∧ standardClaims config = .ok standard ∧
      b64Json (.obj (allClaims accepted (valuesOf accepted names user id) runId threadId
        standard)) = .ok text ∧
      runtimeContextSecret config = .ok secret ∧ token = tokenOf hmac secret text := by
  unfold signRuntimeContext signedClaims at h
  obtain ⟨claims, hclaims, hrest⟩ := bind_ok.1 h
  obtain ⟨text, htext, hrest⟩ := bind_ok.1 hrest
  obtain ⟨secret, hsecret, htoken⟩ := bind_ok.1 hrest
  obtain ⟨⟨accepted, values⟩, hvalues, hclaims⟩ := bind_ok.1 hclaims
  obtain ⟨standard, hstandard, hclaims⟩ := bind_ok.1 hclaims
  obtain rfl := Except.ok.inj hclaims
  obtain ⟨names, user, id, rfl, hnatural, hid⟩ := contextValues_ok hvalues
  exact ⟨accepted, names, user, id, standard, text, secret, hvalues, hnatural, hid, hstandard,
    htext, hsecret, (Except.ok.inj htoken).symm⟩

theorem sign_of_parts {values standard : Members} {text secret : Text}
    (hvalues : contextValues clock context = .ok (accepted, values))
    (hstandard : standardClaims config = .ok standard)
    (htext : b64Json (.obj (allClaims accepted values runId threadId standard)) = .ok text)
    (hsecret : runtimeContextSecret config = .ok secret) :
    signRuntimeContext hmac config clock context runId threadId =
      .ok (tokenOf hmac secret text) := by
  unfold signRuntimeContext signedClaims
  rw [hvalues, hstandard]
  show (do
    let encoded ← b64Json (.obj (allClaims accepted values runId threadId standard))
    let secret ← runtimeContextSecret config
    pure (tokenOf hmac secret encoded)) = _
  rw [htext, hsecret]
  rfl

theorem ofText_ascii {t : Text} (h : ∀ c ∈ t, c.toNat < 128) :
    (ofText t).all (fun c => c.val < 128) = true := by
  unfold ofText
  rw [List.all_map, List.all_eq_true]
  exact fun c hc => decide_eq_true (h c hc)

theorem ofChar_inj {c d : Char} (h : ofChar c = ofChar d) : c = d := by
  have heq := congrArg toChar? h
  rw [toChar?_ofChar, toChar?_ofChar] at heq
  exact Option.some.inj heq

theorem splitOnce_tokenOf (h : ∀ c ∈ text, c.toNat < 128 ∧ c ≠ '.') :
    splitOnce (ofChar '.') (tokenOf hmac secret text) =
      some (ofText text, ofText (hmac secret text)) := by
  refine splitOnce_append fun hdot => ?_
  obtain ⟨c, hc, heq⟩ := List.mem_map.1 hdot
  exact (h c hc).2 (ofChar_inj heq)

section Verify

variable (hhex : ∀ secret text, ∀ c ∈ hmac secret text, c.toNat < 128)

include hhex

/-- A signed token is verified as its claims. -/
theorem verify_tokenOf (hsecret : runtimeContextSecret config = .ok secret)
    (htext : b64Json (.obj members) = .ok text) (r : PyStr) (t : Option PyStr) :
    verifyRuntimeContext hmac config (tokenOf hmac secret text) r t =
      verifyClaims config (sorted members) r t := by
  obtain ⟨hdecode, hascii⟩ := decode_b64Json htext
  have hdigest : compareDigest (ofText (hmac secret text)) (ofText (hmac secret text)) =
      .ok true := by
    unfold compareDigest
    rw [ofText_ascii (hhex secret text), Bool.and_self, if_pos rfl, decide_eq_true rfl]
  unfold verifyRuntimeContext
  rw [splitOnce_tokenOf hascii]
  dsimp only
  rw [hsecret, text?_ofText]
  show (do
    if ← compareDigest (ofText (hmac secret text)) (ofText (hmac secret text)) then do
      let claims ← decodeB64Json text
      verifyClaims config claims r t
    else refuse "invalid runtime context signature") = _
  rw [hdigest, hdecode]
  rfl

/-- A token is verified under the configuration that signed it, for its run and thread. -/
theorem verify_signed
    (h : signRuntimeContext hmac config clock context runId threadId = .ok token) :
    ∃ accepted values, contextValues clock context = .ok (accepted, values) ∧
      ∀ r t, verifyRuntimeContext hmac config token r t =
        if runId = r ∧ threadId = t then .ok (sorted values)
        else refuse "runtime context resource does not match the run" := by
  obtain ⟨accepted, names, user, id, standard, text, secret, hvalues, hnatural, hid, hstandard,
    htext, hsecret, rfl⟩ := signRuntimeContext_ok h
  refine ⟨accepted, _, hvalues, fun r t => ?_⟩
  rw [verify_tokenOf hhex hsecret htext]
  exact verifyClaims_allClaims hstandard hnatural hid r t

omit hhex in
theorem verify_ok {r : PyStr} {t : Option PyStr}
    (h : verifyRuntimeContext hmac config token r t = .ok members) :
    ∃ secret text, runtimeContextSecret config = .ok secret ∧ token = tokenOf hmac secret text := by
  unfold verifyRuntimeContext at h
  split at h
  · exact nomatch h
  next encoded signature hsplit =>
  obtain ⟨secret, hsecret, h⟩ := bind_ok.1 h
  split at h
  · exact nomatch h
  next text htext =>
  obtain ⟨equal, hequal, h⟩ := bind_ok.1 h
  cases equal with
  | false => exact nomatch h
  | true =>
      refine ⟨secret, text, hsecret, ?_⟩
      unfold compareDigest at hequal
      split at hequal
      · have hsignature : signature = ofText (hmac secret text) :=
          of_decide_eq_true (Except.ok.inj hequal)
        rw [append_of_splitOnce hsplit, hsignature, ← ofText_of_text? htext]
        rfl
      · exact nomatch hequal

/-- The signature of the token was made by signing, under some configuration with this secret. -/
def Unforged (hmac : Hmac) (config : TokenConfig) (token : PyStr) : Prop :=
  ∀ secret text, runtimeContextSecret config = .ok secret → token = tokenOf hmac secret text →
    ∃ other clock context runId threadId, other.secret = config.secret ∧
      signRuntimeContext hmac other clock context runId threadId = .ok token

/-- A verified token was signed for the run and the thread. -/
theorem signed_of_verify (hun : Unforged hmac config token) {r : PyStr} {t : Option PyStr}
    (h : verifyRuntimeContext hmac config token r t = .ok members) :
    ∃ clock context, signRuntimeContext hmac config clock context r t = .ok token := by
  obtain ⟨secret, text, hsecret, htoken⟩ := verify_ok h
  obtain ⟨other, clock, context, runId, threadId, hsame, hsign⟩ := hun secret text hsecret htoken
  obtain ⟨accepted, names, user, id, standard, text', secret', hvalues, hnatural, hid, hstandard,
    htext, hsecret', htoken'⟩ := signRuntimeContext_ok hsign
  have hsecrets : runtimeContextSecret config = .ok secret' := by
    rw [← hsecret']
    unfold runtimeContextSecret
    rw [hsame]
  rw [htoken', verify_tokenOf hhex hsecrets htext] at h
  have hother := standardClaims_of_verified hstandard h
  rw [verifyClaims_allClaims hother hnatural hid] at h
  split at h
  · next hboth =>
      obtain ⟨rfl, rfl⟩ := hboth
      rw [htoken']
      exact ⟨clock, context, sign_of_parts hvalues hother htext hsecrets⟩
  · exact nomatch h

end Verify

/-! ## Other exceptions -/

/-- Nothing but a `RuntimeContextError` is raised. -/
def Refuses {α : Type} (x : Except TokenError α) : Prop :=
  ∀ e, x = .error e → ∃ message, e = .runtimeContext message

namespace Refuses

variable {α β : Type}

theorem ok {a : α} : Refuses (.ok a : Except TokenError α) := nofun

theorem refuse {message : String} : Refuses (GraphHarbor.refuse message : Except TokenError α) :=
  fun _ h => ⟨message, (Except.error.inj h).symm⟩

theorem bind {x : Except TokenError α} {f : α → Except TokenError β} (hx : Refuses x)
    (hf : ∀ a, x = .ok a → Refuses (f a)) : Refuses (x >>= f) := by
  cases x with
  | error e => exact fun e' h => hx e' (congrArg Except.error (Except.error.inj h))
  | ok a => exact hf a rfl

theorem ite {c : Prop} [Decidable c] {x y : Except TokenError α} (hx : c → Refuses x)
    (hy : ¬ c → Refuses y) : Refuses (if c then x else y) := by
  by_cases hc : c
  · rw [if_pos hc]
    exact hx hc
  · rw [if_neg hc]
    exact hy hc

theorem of_bind {x : Except TokenError α} {f : α → Except TokenError β} (h : Refuses (x >>= f)) :
    Refuses x := by
  rintro e rfl
  exact h e rfl

end Refuses

theorem correlationValue_refuses {value : Option PyJson} {field : String} :
    Refuses (correlationValue value field) := by
  unfold correlationValue
  split
  · exact .ok
  · exact .ok
  · exact .ite (fun _ => .refuse) fun _ => .ok
  · exact .refuse

theorem permissionNames_refuses {value : PyJson} : Refuses (permissionNames value) := by
  unfold permissionNames
  split
  · exact .ok
  · exact .ite (fun _ => .ok) fun _ => .refuse
  · exact .refuse

theorem acceptedAt_refuses {value : Option PyJson} : Refuses (acceptedAt clock value) := by
  unfold acceptedAt
  split
  · exact .ok
  · exact .ite (fun _ => .ok) fun _ => .refuse
  · exact .refuse

theorem standardClaims_refuses : Refuses (standardClaims config) :=
  .ite (fun _ => .refuse) fun _ => .ite (fun _ => .refuse) fun _ => .ite (fun _ => .ok) fun _ => .ok

theorem decodeB64Json_refuses : Refuses (decodeB64Json text) := by
  unfold decodeB64Json
  split
  · exact .refuse
  · refine .ite (fun _ => .refuse) fun _ => ?_
    split
    · exact .ok
    · exact .refuse

theorem verifyContext_refuses {value : Option PyJson} : Refuses (verifyContext accepted value) := by
  unfold verifyContext
  split
  · exact .ite (fun _ => .refuse) fun _ => .ite (fun _ => .refuse) fun _ =>
      .ite (fun _ => .refuse) fun _ => .bind correlationValue_refuses fun _ _ => .ok
  · exact .refuse

theorem verifyClaims_refuses : Refuses (verifyClaims config members runId threadId) := by
  unfold verifyClaims
  refine .ite (fun _ => .refuse) fun _ => .ite (fun _ => .refuse) fun _ =>
    .ite (fun _ => .refuse) fun _ => ?_
  split
  · exact .refuse
  · exact .ite (fun _ => .refuse) fun _ => .ite (fun _ => .refuse) fun _ => verifyContext_refuses

/-! ### The secret -/

/-- The secret is blank or has a text in UTF-8. -/
def SecretReadable (config : TokenConfig) : Prop :=
  stripped config.secret ≠ [] → (text? (stripped config.secret)).isSome

theorem runtimeContextSecret_refuses_iff :
    Refuses (runtimeContextSecret config) ↔ SecretReadable config := by
  unfold runtimeContextSecret SecretReadable
  by_cases hblank : stripped config.secret = []
  · rw [hblank]
    exact iff_of_true .refuse fun h => absurd rfl h
  · rw [if_neg (by rwa [List.isEmpty_iff])]
    cases text? (stripped config.secret) with
    | none => exact iff_of_false (fun h => nomatch h _ rfl) fun h => nomatch h hblank
    | some secret => exact iff_of_true .ok fun _ => rfl

theorem runtimeContextSecret_ok (h : runtimeContextSecret config = .ok secret) :
    stripped config.secret ≠ [] := by
  unfold runtimeContextSecret at h
  obtain ⟨hblank, -⟩ := refuse_else.1 h
  rwa [List.isEmpty_iff] at hblank

/-! ### Tokens -/

/-- What stands before the first dot has a text in UTF-8, what follows is ASCII. -/
structure Readable (config : TokenConfig) (token : PyStr) : Prop where
  secret : ∀ parts, splitOnce (ofChar '.') token = some parts → SecretReadable config
  encoded : ∀ parts, splitOnce (ofChar '.') token = some parts → stripped config.secret ≠ [] →
    (text? parts.1).isSome
  signature : ∀ parts, splitOnce (ofChar '.') token = some parts → stripped config.secret ≠ [] →
    parts.2.all (fun c => c.val < 128) = true

theorem verify_refuses_iff (hhex : ∀ secret text, ∀ c ∈ hmac secret text, c.toNat < 128) :
    Refuses (verifyRuntimeContext hmac config token runId threadId) ↔ Readable config token := by
  unfold verifyRuntimeContext
  cases hsplit : splitOnce (ofChar '.') token with
  | none =>
      refine iff_of_true .refuse ⟨?_, ?_, ?_⟩ <;>
        exact fun parts h => nomatch hsplit.symm.trans h
  | some parts =>
      obtain ⟨encoded, signature⟩ := parts
      dsimp only
      constructor
      · intro h
        have hsecret := runtimeContextSecret_refuses_iff.1 h.of_bind
        have hrest (hset : stripped config.secret ≠ []) : (text? encoded).isSome ∧
            signature.all (fun c => c.val < 128) = true := by
          obtain ⟨secret, htext⟩ := Option.isSome_iff_exists.1 (hsecret hset)
          have hok : runtimeContextSecret config = .ok secret := by
            unfold runtimeContextSecret
            rw [if_neg (by rwa [List.isEmpty_iff]), htext]
          rw [hok] at h
          cases hencoded : text? encoded with
          | none =>
              rw [hencoded] at h
              exact nomatch h _ rfl
          | some text =>
              refine ⟨rfl, ?_⟩
              rw [hencoded] at h
              have hdigest : Refuses (compareDigest signature (ofText (hmac secret text))) :=
                Refuses.of_bind h
              unfold compareDigest at hdigest
              by_contra hwide
              rw [ofText_ascii (hhex secret text), Bool.and_true, if_neg hwide] at hdigest
              exact nomatch hdigest _ rfl
        refine ⟨fun _ _ => hsecret, ?_, ?_⟩
        · rintro parts hparts hset
          obtain rfl := Option.some.inj (hsplit.symm.trans hparts)
          exact (hrest hset).1
        · rintro parts hparts hset
          obtain rfl := Option.some.inj (hsplit.symm.trans hparts)
          exact (hrest hset).2
      · intro h
        have hrefuses := runtimeContextSecret_refuses_iff.2 (h.secret _ hsplit)
        refine .bind hrefuses fun secret hsecret => ?_
        have hset := runtimeContextSecret_ok hsecret
        obtain ⟨text, htext⟩ := Option.isSome_iff_exists.1 (h.encoded _ hsplit hset)
        rw [htext]
        refine .bind ?_ fun equal _ => ?_
        · unfold compareDigest
          rw [ofText_ascii (hhex secret text), Bool.and_true, if_pos (h.signature _ hsplit hset)]
          exact .ok
        · exact .ite (fun _ => .bind decodeB64Json_refuses fun _ _ => verifyClaims_refuses)
            fun _ => .refuse

/-! ### The context -/

/-- The auth user of a context whose fields and permissions pass the checks. -/
structure UserReached (context user : Members) : Prop where
  fields : (keys context).all (· ∈ contextFields) = true
  permissions : ∃ names, permissionNames (getOr context "permissions" (.arr [])) = .ok names
  found : getOr context "auth_user" (.obj []) = .obj user
  short : membersHaveLong user = false

theorem authUserMapping_refuses {value : PyJson}
    (h : ∀ user, value = .obj user → membersHaveLong user = false → (members? user).isSome) :
    Refuses (authUserMapping value) := by
  cases value with
  | obj user =>
      refine .ite (fun _ => .refuse) fun hshort => ?_
      obtain ⟨v, hv⟩ := Option.isSome_iff_exists.1 (h user rfl (Bool.of_not_eq_true hshort))
      rw [hv]
      refine .ite (fun _ => .refuse) fun _ => ?_
      split
      · exact .ok
      · exact .bind correlationValue_refuses fun _ _ => .ok
  | null | bool | num | str | arr => exact .refuse

theorem contextValues_refuses_iff : Refuses (contextValues clock context) ↔
    ∀ user, UserReached context user → (members? user).isSome := by
  unfold contextValues
  constructor
  · rintro h user ⟨hfields, ⟨names, hnames⟩, hfound, hshort⟩
    rw [if_neg (by rw [hfields]; exact Bool.false_ne_true), hnames, hfound] at h
    have huser : Refuses (authUserMapping (.obj user)) := Refuses.of_bind h
    by_contra hnone
    rw [Bool.not_eq_true, Option.isSome_eq_false_iff, Option.isNone_iff_eq_none] at hnone
    unfold authUserMapping at huser
    dsimp only at huser
    rw [if_neg (by rw [hshort]; exact Bool.false_ne_true), hnone] at huser
    exact nomatch huser _ rfl
  · intro h
    refine .ite (fun _ => .refuse) fun hfields => ?_
    rw [Bool.not_eq_true', Bool.not_eq_false] at hfields
    refine .bind permissionNames_refuses fun names hnames => ?_
    refine .bind (authUserMapping_refuses fun user hfound hshort =>
      h user ⟨hfields, ⟨names, hnames⟩, hfound, hshort⟩) fun _ _ => ?_
    exact .ite (fun _ => .refuse) fun _ => .bind acceptedAt_refuses fun _ _ =>
      .bind correlationValue_refuses fun _ _ => .ok

/-! ### The claims -/

theorem b64Json_refuses_iff : Refuses (b64Json (.obj members)) ↔
    membersHaveLong members = false ∧ (members? members).isSome := by
  have hsome : (value? (sortKeys (.obj members))).isSome = (members? members).isSome := by
    rw [isSome_value?_sortKeys, value?, Option.isSome_map]
  rw [← hsome]
  unfold b64Json
  show Refuses (if membersHaveLong members = true then _ else _) ↔ _
  by_cases hlong : membersHaveLong members = true
  · rw [if_pos hlong]
    refine iff_of_false (fun h => nomatch h _ rfl) fun h => ?_
    rw [hlong] at h
    exact nomatch h.1
  · rw [if_neg hlong, and_iff_right (Bool.of_not_eq_true hlong)]
    cases value? (sortKeys (.obj members)) with
    | none => exact iff_of_false (fun h => nomatch h _ rfl) Bool.false_ne_true
    | some v => exact iff_of_true .ok rfl

theorem b64Json_ok (hlong : membersHaveLong members = false) (htext : (members? members).isSome) :
    ∃ text, b64Json (.obj members) = .ok text := by
  have hrefuses := b64Json_refuses_iff.2 ⟨hlong, htext⟩
  have hnot (message : String) : b64Json (.obj members) ≠ refuse message := by
    unfold b64Json
    split
    · exact nofun
    split
    · exact nofun
    · exact nofun
  cases hcase : b64Json (.obj members) with
  | ok text => exact ⟨text, rfl⟩
  | error e =>
      obtain ⟨message, rfl⟩ := hrefuses e hcase
      exact absurd hcase (hnot message)

theorem text?_keyOf (s : String) : (text? (keyOf s)).isSome := by
  have htext : text? (ofText s.toList) = some s.toList := text?_ofText _
  show (text? (ofText s.toList)).isSome
  rw [htext]
  rfl

theorem value?_ofName : (value? (ofName id)).isSome ↔ ∀ s, id = some s → (text? s).isSome := by
  cases id with
  | none => exact iff_of_true rfl nofun
  | some s =>
      show ((text? s).map JsonText.Value.str).isSome ↔ _
      rw [Option.isSome_map]
      exact ⟨fun h t ht => Option.some.inj ht ▸ h, fun h => h s rfl⟩

/-- The texts of the claims are those of the values, the ids and the settings. -/
theorem members?_allClaims : (members? (allClaims accepted values runId threadId standard)).isSome ↔
    (members? values).isSome ∧ (members? standard).isSome ∧ (text? runId).isSome ∧
      ∀ t, threadId = some t → (text? t).isSome := by
  have hvalues : (value? (.obj values)).isSome = (members? values).isSome := Option.isSome_map
  have hrun : (value? (.str runId)).isSome = (text? runId).isSome := Option.isSome_map
  have hnumber (n : Number) : (value? (.num n)).isSome := rfl
  have hstandard : (members? standard).isSome ↔ _ := members?_isSome
  rw [members?_isSome, allClaims, List.forall_mem_append, ← hstandard]
  unfold claimsOf
  simp only [List.forall_mem_cons, text?_keyOf, true_and, value?_ofName, hvalues, hrun, hnumber]
  have hnil : ∀ m ∈ ([] : Members), (text? m.1).isSome = true ∧ (value? m.2).isSome = true := nofun
  tauto

theorem membersHaveLong_allClaims (hstandard : standardClaims config = .ok standard) :
    membersHaveLong (allClaims accepted (valuesOf accepted names user id) runId threadId standard) =
      membersHaveLong (valuesOf accepted names user id) := by
  have hnone : standard.any (fun m => hasLong m.2) = false := by
    rcases standardClaims_ok hstandard with ⟨i, a, -, -, -, -, rfl⟩ | ⟨-, rfl⟩
    · rfl
    · rfl
  have hthread : hasLong (ofName threadId) = false := by cases threadId <;> rfl
  have htwo : isLong two = false := rfl
  rw [membersHaveLong_eq, allClaims, List.any_append, hnone, Bool.or_false]
  unfold claimsOf
  rw [List.any_cons, List.any_cons, List.any_cons, List.any_cons, List.any_cons, List.any_nil,
    hthread]
  show (isLong two || (isLong accepted || (false || (false ||
    (membersHaveLong (valuesOf accepted names user id) || false))))) = _
  rw [htwo, Bool.false_or, Bool.false_or, Bool.false_or, Bool.or_false]
  unfold valuesOf
  rw [List.cons_append, membersHaveLong]
  show (isLong accepted || (isLong accepted || _)) = (isLong accepted || _)
  rw [← Bool.or_assoc, Bool.or_self]

/-! ### The values -/

theorem text?_stripped {s : PyStr} (h : (text? s).isSome) : (text? (stripped s)).isSome := by
  rw [text?_isSome] at h ⊢
  intro c hc
  have hdrop := (List.rdropWhile_prefix isWhite (s.dropWhile isWhite)).subset hc
  exact h c ((List.dropWhile_suffix isWhite).subset hdrop)

/-- The name that is taken over has a text if the name that is given has one. -/
theorem correlationValue_text {value : PyJson} {field : String} (hvalue : (value? value).isSome)
    (h : correlationValue (some value) field = .ok id) : (value? (ofName id)).isSome := by
  unfold correlationValue at h
  split at h
  · obtain rfl := Except.ok.inj h
    rfl
  · obtain rfl := Except.ok.inj h
    rfl
  · next s heq =>
      obtain rfl := Option.some.inj heq
      obtain ⟨-, h⟩ := refuse_else.1 h
      obtain rfl := Except.ok.inj h
      rw [value?, Option.isSome_map] at hvalue
      rw [ofName, value?, Option.isSome_map]
      exact text?_stripped hvalue
  · exact nomatch h

theorem mem_setMember {key : PyStr} {value : PyJson} {m : PyStr × PyJson}
    (h : m ∈ setMember members key value) : m ∈ members ∨ m = (key, value) := by
  obtain ⟨n, hn, rfl⟩ := List.mem_map.1 h
  by_cases hkey : n.1 = key
  · rw [if_pos hkey, hkey]
    exact .inr rfl
  · rw [if_neg hkey]
    exact .inl hn

/-- An auth user that was taken over has been written as JSON. -/
theorem authUserMapping_ok {value : PyJson} (h : authUserMapping value = .ok user) :
    membersHaveLong user = false ∧ (members? user).isSome := by
  cases value with
  | obj given =>
      unfold authUserMapping at h
      obtain ⟨hshort, h⟩ := refuse_else.1 h
      rw [Bool.not_eq_true] at hshort
      split at h
      · exact nomatch h
      next texts htexts =>
      have hsome : (members? given).isSome := Option.isSome_iff_exists.2 ⟨texts, htexts⟩
      obtain ⟨-, h⟩ := refuse_else.1 h
      split at h
      · obtain rfl := Except.ok.inj h
        exact ⟨hshort, hsome⟩
      · next request hrequest =>
          obtain ⟨id, hid, h⟩ := bind_ok.1 h
          obtain rfl := Except.ok.inj h
          rw [members?_isSome] at hsome
          have hname : (value? (ofName id)).isSome :=
            correlationValue_text (hsome _ (mem_of_get? hrequest)).2 hid
          refine ⟨?_, members?_isSome.2 fun m hm => ?_⟩
          · rw [membersHaveLong_eq, List.any_eq_false] at hshort ⊢
            intro m hm
            rcases mem_setMember hm with hm | rfl
            · exact hshort m hm
            · cases id <;> exact Bool.false_ne_true
          · rcases mem_setMember hm with hm | rfl
            · exact hsome m hm
            · exact ⟨text?_keyOf _, hname⟩
  | null | bool | num | str | arr => exact nomatch h

/-- Of the values, the user is known to be written. -/
theorem members?_valuesOf (huser : (members? user).isSome) :
    (members? (valuesOf accepted (sortedNames names) user id)).isSome ↔
      (∀ name ∈ names, (text? name).isSome) ∧ ∀ s, id = some s → (text? s).isSome := by
  have hnumber : (value? (.num accepted)).isSome := rfl
  have hobject : (value? (.obj user)).isSome = (members? user).isSome := Option.isSome_map
  have hnames : (value? (.arr ((sortedNames names).map .str))).isSome ↔
      ∀ name ∈ names, (text? name).isSome := by
    rw [value?, Option.isSome_map, items?_isSome, List.forall_mem_map]
    exact forall_congr' fun name => by rw [mem_sortedNames, value?, Option.isSome_map]
  have hid : (∀ m ∈ id.toList.map fun s => (keyOf "request_id", PyJson.str s),
      (text? m.1).isSome ∧ (value? m.2).isSome) ↔ ∀ s, id = some s → (text? s).isSome := by
    rw [List.forall_mem_map]
    exact forall_congr' fun s => by
      rw [Option.mem_toList, value?, Option.isSome_map, and_iff_right (text?_keyOf _)]
  have hnil : ∀ m ∈ ([] : Members), (text? m.1).isSome = true ∧ (value? m.2).isSome = true := nofun
  rw [members?_isSome, valuesOf, List.forall_mem_append, hid]
  simp only [List.forall_mem_cons, text?_keyOf, true_and, hnumber, hnames, hobject, huser]
  tauto

theorem membersHaveLong_valuesOf (huser : membersHaveLong user = false) :
    membersHaveLong (valuesOf accepted names user id) = isLong accepted := by
  have hnames : itemsHaveLong (names.map .str) = false := by
    rw [itemsHaveLong_eq, List.any_map, List.any_eq_false]
    exact fun _ _ => Bool.false_ne_true
  have hid : membersHaveLong (id.toList.map fun s => (keyOf "request_id", PyJson.str s)) =
      false := by
    cases id <;> rfl
  unfold valuesOf
  show (isLong accepted || (itemsHaveLong (names.map .str) || (membersHaveLong user ||
    membersHaveLong (id.toList.map fun s => (keyOf "request_id", PyJson.str s))))) = _
  rw [hnames, huser, hid, Bool.or_self, Bool.or_self, Bool.or_false]

/-! ### Signing -/

/-- What is written besides the auth user has a text in UTF-8, and no integer is too long. -/
structure Encodable (config : TokenConfig) (accepted : Number) (names : List PyStr)
    (id : Option PyStr) (standard : Members) (runId : PyStr) (threadId : Option PyStr) :
    Prop where
  accepted : isLong accepted = false
  names : ∀ name ∈ names, (text? name).isSome
  id : ∀ s, id = some s → (text? s).isSome
  standard : (members? standard).isSome
  runId : (text? runId).isSome
  threadId : ∀ t, threadId = some t → (text? t).isSome
  secret : SecretReadable config

/-- What is read of a context, of the settings and the ids before a check fails can be written. -/
structure Writable (config : TokenConfig) (clock : Clock) (context : Members) (runId : PyStr)
    (threadId : Option PyStr) : Prop where
  user : ∀ user, UserReached context user → (members? user).isSome
  claims : ∀ accepted names user id standard, Normal clock context accepted names user id →
    standardClaims config = .ok standard →
      Encodable config accepted names id standard runId threadId

theorem b64Json_allClaims (hnormal : Normal clock context accepted names user id)
    (hstandard : standardClaims config = .ok standard) :
    (Refuses (b64Json (.obj (allClaims accepted (valuesOf accepted (sortedNames names) user id)
      runId threadId standard))) ∧ SecretReadable config) ↔
        Encodable config accepted names id standard runId threadId := by
  obtain ⟨hshort, huser⟩ := authUserMapping_ok hnormal.mapping
  rw [b64Json_refuses_iff, membersHaveLong_allClaims hstandard, membersHaveLong_valuesOf hshort,
    members?_allClaims, members?_valuesOf huser]
  constructor
  · rintro ⟨⟨haccepted, ⟨hnames, hid⟩, hclaims, hrun, hthread⟩, hsecret⟩
    exact ⟨haccepted, hnames, hid, hclaims, hrun, hthread, hsecret⟩
  · rintro ⟨haccepted, hnames, hid, hclaims, hrun, hthread, hsecret⟩
    exact ⟨⟨haccepted, ⟨hnames, hid⟩, hclaims, hrun, hthread⟩, hsecret⟩

theorem sign_refuses_iff :
    Refuses (signRuntimeContext hmac config clock context runId threadId) ↔
      Writable config clock context runId threadId := by
  unfold signRuntimeContext signedClaims
  constructor
  · intro h
    refine ⟨contextValues_refuses_iff.1 h.of_bind.of_bind, fun accepted names user id standard
      hnormal hstandard => (b64Json_allClaims hnormal hstandard).1 ?_⟩
    rw [contextValues_ok_iff.2 ⟨names, user, id, hnormal, rfl⟩, hstandard] at h
    have hrest : Refuses (do
        let encoded ← b64Json (.obj (allClaims accepted (valuesOf accepted (sortedNames names) user
          id) runId threadId standard))
        let secret ← runtimeContextSecret config
        pure (ofText encoded ++ ofChar '.' :: ofText (hmac secret encoded))) := h
    refine ⟨hrest.of_bind, ?_⟩
    -- the secret is read once the claims have been encoded
    obtain ⟨hlong, hmembers⟩ := b64Json_refuses_iff.1 hrest.of_bind
    obtain ⟨text, htext⟩ := b64Json_ok hlong hmembers
    rw [htext] at hrest
    have hsecret : Refuses (runtimeContextSecret config) := Refuses.of_bind hrest
    exact runtimeContextSecret_refuses_iff.1 hsecret
  · intro h
    refine .bind (.bind (contextValues_refuses_iff.2 h.user) fun _ _ =>
      .bind standardClaims_refuses fun _ _ => .ok) fun claims hclaims => ?_
    obtain ⟨⟨accepted, values⟩, hvalues, hclaims⟩ := bind_ok.1 hclaims
    obtain ⟨standard, hstandard, hclaims⟩ := bind_ok.1 hclaims
    obtain rfl := Except.ok.inj hclaims
    obtain ⟨names, user, id, hnormal, rfl⟩ := contextValues_ok_iff.1 hvalues
    obtain ⟨hencoded, hsecret⟩ :=
      (b64Json_allClaims hnormal hstandard).2 (h.claims _ _ _ _ _ hnormal hstandard)
    refine .bind hencoded fun _ _ => ?_
    exact .bind (runtimeContextSecret_refuses_iff.2 hsecret) fun _ _ => .ok

/-! ## Round trip -/

/-- Signing returns or raises a `RuntimeContextError`, a signed token is verified for its run and
thread with the values of the context, and every other token raises a `RuntimeContextError`. -/
structure Sealed (hmac : Hmac) (config : TokenConfig) (clock : Clock) (context : Members)
    (runId : PyStr) (threadId : Option PyStr) (token runId' : PyStr) (threadId' : Option PyStr) :
    Prop where
  signed : (∃ t, signRuntimeContext hmac config clock context runId threadId = .ok t) ∨
    ∃ message, signRuntimeContext hmac config clock context runId threadId = refuse message
  returned : ∀ t, signRuntimeContext hmac config clock context runId threadId = .ok t →
    ∃ accepted names user id, Normal clock context accepted names user id ∧
      verifyRuntimeContext hmac config t runId threadId =
        .ok (sorted (valuesOf accepted (sortedNames names) user id))
  bound : ∀ t, signRuntimeContext hmac config clock context runId threadId = .ok t →
    ¬ (runId' = runId ∧ threadId' = threadId) →
      ∃ message, verifyRuntimeContext hmac config t runId' threadId' = refuse message
  closed : (¬ ∃ clock context,
      signRuntimeContext hmac config clock context runId' threadId' = .ok token) →
    ∃ message, verifyRuntimeContext hmac config token runId' threadId' = refuse message

theorem refuses_iff {α : Type} {x : Except TokenError α} :
    Refuses x ↔ (∃ a, x = .ok a) ∨ ∃ message, x = refuse message := by
  constructor
  · intro h
    cases x with
    | ok a => exact .inl ⟨a, rfl⟩
    | error e =>
        obtain ⟨message, rfl⟩ := h e rfl
        exact .inr ⟨message, rfl⟩
  · rintro (⟨a, rfl⟩ | ⟨message, rfl⟩)
    · exact .ok
    · exact .refuse

/-- A token that was signed is readable. -/
theorem readable_of_signed (hhex : ∀ secret text, ∀ c ∈ hmac secret text, c.toNat < 128)
    (h : signRuntimeContext hmac config clock context runId threadId = .ok token) :
    Readable config token := by
  obtain ⟨accepted, values, -, hverify⟩ := verify_signed hhex h
  have hok : Refuses (verifyRuntimeContext hmac config token runId threadId) := by
    rw [hverify, if_pos ⟨rfl, rfl⟩]
    exact .ok
  exact (verify_refuses_iff hhex).1 hok

/-- Tokens round trip and fail closed exactly when all that is written or read has a text. -/
theorem tokens_sealed_iff (hmac : Hmac)
    (hhex : ∀ secret text, ∀ c ∈ hmac secret text, c.toNat < 128) (config : TokenConfig)
    (clock : Clock) (context : Members) (runId : PyStr) (threadId : Option PyStr)
    (token runId' : PyStr) (threadId' : Option PyStr) (hun : Unforged hmac config token) :
    Sealed hmac config clock context runId threadId token runId' threadId' ↔
      Writable config clock context runId threadId ∧ Readable config token := by
  constructor
  · intro h
    refine ⟨sign_refuses_iff.1 (refuses_iff.2 h.signed), ?_⟩
    by_cases hsigned : ∃ clock context,
        signRuntimeContext hmac config clock context runId' threadId' = .ok token
    · obtain ⟨clock', context', hsign⟩ := hsigned
      exact readable_of_signed hhex hsign
    · have hrefused : Refuses (verifyRuntimeContext hmac config token runId' threadId') :=
        refuses_iff.2 (.inr (h.closed hsigned))
      exact (verify_refuses_iff hhex).1 hrefused
  · rintro ⟨hwritable, hreadable⟩
    refine ⟨refuses_iff.1 (sign_refuses_iff.2 hwritable), fun t ht => ?_, fun t ht hother => ?_,
      fun hsigned => ?_⟩
    · obtain ⟨accepted, values, hvalues, hverify⟩ := verify_signed hhex ht
      obtain ⟨names, user, id, hnormal, rfl⟩ := contextValues_ok_iff.1 hvalues
      refine ⟨accepted, names, user, id, hnormal, ?_⟩
      rw [hverify, if_pos ⟨rfl, rfl⟩]
    · obtain ⟨accepted, values, -, hverify⟩ := verify_signed hhex ht
      rw [hverify, if_neg fun h => hother ⟨h.1.symm, h.2.symm⟩]
      exact ⟨_, rfl⟩
    · rcases refuses_iff.1 ((verify_refuses_iff hhex).2 hreadable) with ⟨members, hok⟩ | hrefused
      · exact absurd (signed_of_verify hhex hun hok) hsigned
      · exact hrefused

/-! ### A signed token -/

def tokenConfig : TokenConfig := ⟨ofString " s", none, none, false⟩

def tokenClock : Clock := ⟨⟨['7'], by decide⟩, by decide, by decide⟩

def tokenContext : Members :=
  [(keyOf "permissions", .arr []), (keyOf "accepted_at", .num ⟨['5'], by decide⟩),
    (keyOf "auth_user", .obj [(keyOf "identity", .str (keyOf "a"))])]

/-- The digest of the claims under the secret `s`. -/
def claimsDigest : Text :=
  "500969da2cc174f5ffd4b817339956a06221a46063fd1254cdcc508ba4fd79b8".toList

def signedToken : PyStr :=
  ofString <| "eyJhY2NlcHRlZF9hdCI6NSwiY29udGV4dCI6eyJhY2NlcHRlZF9hdCI6NSwiYXV0aF91c2VyIjp7Iml" ++
    "kZW50aXR5IjoiYSJ9LCJwZXJtaXNzaW9ucyI6W119LCJydW5faWQiOiIxIiwidGhyZWFkX2lkIjpudWxsLCJ2Ijoy" ++
    "fQ." ++
    "500969da2cc174f5ffd4b817339956a06221a46063fd1254cdcc508ba4fd79b8"

theorem claimsDigest_ascii : ∀ c ∈ claimsDigest, c.toNat < 128 := by
  have hall : claimsDigest.all (fun c => c.toNat < 128) = true := rfl
  exact fun c hc => of_decide_eq_true (List.all_eq_true.1 hall c hc)

theorem signedToken_signed : signRuntimeContext (fun _ _ => claimsDigest) tokenConfig tokenClock
    tokenContext (keyOf "1") none = .ok signedToken := by decide +kernel

/-- The token of run `1` is refused for run `2`. -/
theorem tokens_sealed_signed : Sealed (fun _ _ => claimsDigest) tokenConfig tokenClock tokenContext
    (keyOf "1") none signedToken (keyOf "2") none := by
  have hhex : ∀ _ _ : Text, ∀ c ∈ claimsDigest, c.toNat < 128 := fun _ _ => claimsDigest_ascii
  have hun : Unforged (fun _ _ => claimsDigest) tokenConfig signedToken := fun _ _ _ _ =>
    ⟨tokenConfig, tokenClock, tokenContext, keyOf "1", none, rfl, signedToken_signed⟩
  have hwritable : Writable tokenConfig tokenClock tokenContext (keyOf "1") none :=
    sign_refuses_iff.1 (refuses_iff.2 (.inl ⟨_, signedToken_signed⟩))
  exact (tokens_sealed_iff _ hhex _ _ _ _ _ _ _ _ hun).2
    ⟨hwritable, readable_of_signed hhex signedToken_signed⟩

/-! ### A signature that is not ASCII -/

/-- The digest of `a` under the secret `s`. -/
def letterDigest : Text :=
  "9659450897188d054f9c20310342e042c55697737b2798b59f8f1cef7dda0674".toList

def accentToken : PyStr := ofString "a.é"

theorem tokens_not_sealed : ¬ ∀ hmac : Hmac,
    (∀ secret text, ∀ c ∈ hmac secret text, c.toNat < 128) →
      ∀ (config : TokenConfig) (clock : Clock) (context : Members) (runId : PyStr)
        (threadId : Option PyStr) (token runId' : PyStr) (threadId' : Option PyStr),
          Unforged hmac config token →
            Sealed hmac config clock context runId threadId token runId' threadId' := by
  intro h
  have hall : letterDigest.all (fun c => c.toNat < 128) = true := rfl
  have hhex : ∀ _ _ : Text, ∀ c ∈ letterDigest, c.toNat < 128 := fun _ _ c hc =>
    of_decide_eq_true (List.all_eq_true.1 hall c hc)
  have hun : Unforged (fun _ _ => letterDigest) tokenConfig accentToken := by
    intro secret text _ htoken
    have hlength : 3 = (ofText text).length + 65 :=
      (congrArg List.length htoken).trans List.length_append
    omega
  have hsealed := h _ hhex tokenConfig tokenClock tokenContext (keyOf "1") none accentToken
    (keyOf "1") none hun
  have hunsigned : ¬ ∃ clock context, signRuntimeContext (fun _ _ => letterDigest) tokenConfig
      clock context (keyOf "1") none = .ok accentToken := by
    rintro ⟨clock, context, hsign⟩
    have hsignature := (readable_of_signed hhex hsign).signature (ofString "a", ofString "é") rfl
      (by decide)
    exact absurd hsignature (by decide)
  obtain ⟨message, hverify⟩ := hsealed.closed hunsigned
  have htype : verifyRuntimeContext (fun _ _ => letterDigest) tokenConfig accentToken (keyOf "1")
      none = .error .type := by rfl
  exact nomatch htype.symm.trans hverify

end GraphHarbor
