import GraphHarbor.Kit.EventStream
import GraphHarbor.Kit.JsonText

/-!
# Framing

The two encoders of server-sent events. `_frame` writes the JSON text of a wire as one data
line. `_sse` splits the text with `str.splitlines` first, and the parser of the client joins
the pieces with LF: a separator that only Python knows comes back as a line feed inside of
a string, which is no JSON text.
-/

namespace GraphHarbor

open Kit.JsonText Kit.EventStream

/-! ## Python text -/

/-- A line boundary of `str.splitlines`. -/
def isBoundary (c : Char) : Bool :=
  [0x0a, 0x0b, 0x0c, 0x0d, 0x1c, 0x1d, 0x1e, 0x85, 0x2028, 0x2029].contains c.toNat

/-- The boundaries that a JSON text can have: the others are escaped. -/
def isSeparator (c : Char) : Bool := [0x85, 0x2028, 0x2029].contains c.toNat

/-- The lines of `line ++ text`, `line` without a boundary. -/
def splitlinesFrom (line : Text) : Text → List Text
  | [] => if line = [] then [] else [line]
  | '\r' :: '\n' :: t => line :: splitlinesFrom [] t
  | c :: t => if isBoundary c then line :: splitlinesFrom [] t else splitlinesFrom (line ++ [c]) t

def splitlines (t : Text) : List Text := splitlinesFrom [] t

/-- `separator.join(lines)` with `"\n"`. -/
def joinLines (lines : List Text) : Text := List.intercalate ['\n'] lines

/-! ## The encoders -/

mutual

/-- `_jsonable` on a JSON value. -/
def jsonable : Value → Value
  | .arr items => .arr (jsonableItems items)
  | .obj members => .obj (jsonableMembers members)
  | v => v

def jsonableItems : List Value → List Value
  | [] => []
  | a :: rest => jsonable a :: jsonableItems rest

def jsonableMembers : List (Text × Value) → List (Text × Value)
  | [] => []
  | (k, a) :: rest => (k, jsonable a) :: jsonableMembers rest

end

def idLine (id : Text) : Text := ['i', 'd', ':', ' '] ++ id
def eventLine (event : Text) : Text := ['e', 'v', 'e', 'n', 't', ':', ' '] ++ event
def dataLine (line : Text) : Text := ['d', 'a', 't', 'a', ':', ' '] ++ line

/-- `encoded.splitlines() or [encoded]`. -/
def encodedLines (encoded : Text) : List Text :=
  match splitlines encoded with
  | [] => [encoded]
  | lines => lines

/-- The data lines. `None` has none. -/
def dataLines : Value → List Text
  | .null => []
  | data => (encodedLines (jsonable data).dumps).map dataLine

/-- `_sse`, the id as its text. -/
def sse (event : Text) (data : Value) (eventId : Option Text) (eventIdLast : Bool) : Text :=
  let ids := eventId.toList.map idLine
  let lines := (if eventIdLast then [] else ids) ++ [eventLine event] ++ dataLines data ++
    (if eventIdLast then ids else []) ++ [[]]
  joinLines lines ++ ['\n']

/-- `wire.get("seq")`. -/
def seqOf (wire : List (Text × Value)) : Value := (wire.lookup ['s', 'e', 'q']).getD .null

/-- `_frame`. `str` is the function of that name, with which the id is formatted. -/
def frame (str : Value → Text) (wire : List (Text × Value)) : Text :=
  idLine (str (seqOf wire)) ++ ['\n'] ++ eventLine ['e', 'v', 'e', 'n', 't'] ++ ['\n'] ++
    dataLine (Value.obj wire).dumps ++ ['\n', '\n']

/-! ## Splitting a JSON text -/

mutual

theorem jsonable_eq : ∀ v : Value, jsonable v = v
  | .null | .bool _ | .num _ | .str _ => rfl
  | .arr items => congrArg Value.arr (jsonableItems_eq items)
  | .obj members => congrArg Value.obj (jsonableMembers_eq members)

theorem jsonableItems_eq : ∀ items : List Value, jsonableItems items = items
  | [] => rfl
  | a :: rest => by rw [jsonableItems, jsonable_eq a, jsonableItems_eq rest]

theorem jsonableMembers_eq : ∀ members : List (Text × Value), jsonableMembers members = members
  | [] => rfl
  | (_, a) :: rest => by rw [jsonableMembers, jsonable_eq a, jsonableMembers_eq rest]

end

theorem isSeparator_wide : Wide isSeparator := by
  intro c hc
  simp only [isSeparator, List.contains_iff_mem, List.mem_cons, List.not_mem_nil, or_false] at hc
  omega

section Split

variable {line t : Text} {c : Char}

theorem splitlinesFrom_cons (hc : c ≠ '\r') : splitlinesFrom line (c :: t) =
    if isBoundary c then line :: splitlinesFrom [] t else splitlinesFrom (line ++ [c]) t := by
  rw [splitlinesFrom]
  intro _ h _
  exact hc h

/-- The lines, each ended by a line feed, are the text with its boundaries overwritten. -/
theorem unlines_splitlinesFrom (hcr : '\r' ∉ t)
    (hlast : ∀ c, t.getLast? = some c → isBoundary c = false) (hne : t = [] → line ≠ []) :
    unlines (splitlinesFrom line t) = line ++ smear isBoundary t ++ ['\n'] := by
  induction t generalizing line with
  | nil => simp [splitlinesFrom, hne rfl, unlines]
  | cons c t ih =>
      have hcr' : '\r' ∉ t := fun h => hcr (List.mem_cons_of_mem _ h)
      have hlast' : ∀ d, t.getLast? = some d → isBoundary d = false := fun d hd =>
        hlast d (by cases t <;> simp_all [List.getLast?_cons_cons])
      rw [splitlinesFrom_cons fun h => hcr (by simp [h])]
      by_cases hc : isBoundary c = true
      · -- the last character is no boundary, so that another line begins
        have ht : t = [] → ([] : Text) ≠ [] := by
          rintro rfl
          have := hlast c rfl
          simp [hc] at this
        have hrest : unlines (splitlinesFrom [] t) = [] ++ smear isBoundary t ++ ['\n'] :=
          ih hcr' hlast' ht
        rw [if_pos hc]
        simp only [unlines, List.flatMap_cons] at hrest ⊢
        rw [hrest]
        simp [smear, hc]
      · rw [if_neg hc, ih hcr' hlast' (by simp)]
        simp [smear, hc]

theorem isLine_splitlinesFrom (hline : IsLine line) : ∀ l ∈ splitlinesFrom line t, IsLine l := by
  induction line, t using splitlinesFrom.induct with
  | case1 => simp [splitlinesFrom]
  | case2 line h => simpa [splitlinesFrom, h] using hline
  | case3 line t ih =>
      intro l hl
      rw [splitlinesFrom, List.mem_cons] at hl
      rcases hl with rfl | hl
      · exact hline
      · exact ih (by intro c hc; simp at hc) l hl
  | case4 line c t hpair hc ih =>
      intro l hl
      rw [splitlinesFrom.eq_3 _ _ _ hpair, if_pos hc, List.mem_cons] at hl
      rcases hl with rfl | hl
      · exact hline
      · exact ih (by intro c hc; simp at hc) l hl
  | case5 line c t hpair hc ih =>
      intro l hl
      rw [splitlinesFrom.eq_3 _ _ _ hpair, if_neg hc] at hl
      refine ih ?_ l hl
      intro d hd
      rcases List.mem_append.mp hd with hd | hd
      · exact hline d hd
      · obtain rfl := List.mem_singleton.mp hd
        constructor <;> rintro rfl <;> exact hc (by decide)

theorem isBoundary_printable (hc : 32 ≤ c.toNat) : isBoundary c = isSeparator c := by
  simp only [isBoundary, isSeparator, List.contains_cons, List.contains_nil, Bool.or_false]
  have hne (n : Nat) (hn : n < 32) : (c.toNat == n) = false := by
    rw [beq_eq_false_iff_ne]
    omega
  simp only [hne 0x0a (by omega), hne 0x0b (by omega), hne 0x0c (by omega), hne 0x0d (by omega),
    hne 0x1c (by omega), hne 0x1d (by omega), hne 0x1e (by omega), Bool.false_or]

end Split

/-- What the data lines of a value carry. -/
theorem unlines_encodedLines (v : Value) :
    unlines (encodedLines v.dumps) = smear isSeparator v.dumps ++ ['\n'] := by
  have hprintable := dumps_printable v
  obtain ⟨t, c, htext, hc⟩ := dumps_last v
  have hcr : '\r' ∉ v.dumps := fun h => absurd (hprintable _ h) (by decide)
  have hlast : ∀ d, v.dumps.getLast? = some d → isBoundary d = false := by
    intro d hd
    rw [htext, List.getLast?_append, List.getLast?_singleton, Option.some_or] at hd
    obtain rfl := Option.some.inj hd
    rw [isBoundary_printable (hprintable c (by simp [htext]))]
    by_contra hsep
    have := isSeparator_wide c (by simpa using hsep)
    omega
  have hne : v.dumps ≠ [] := by simp [htext]
  have hlines : unlines (splitlines v.dumps) = smear isSeparator v.dumps ++ ['\n'] := by
    rw [splitlines, unlines_splitlinesFrom hcr hlast fun h => absurd h hne, List.nil_append]
    rw [smear_congr fun c hc => isBoundary_printable (hprintable c hc)]
  have hsome : splitlines v.dumps ≠ [] := by
    intro h
    rw [h] at hlines
    simp [unlines] at hlines
  unfold encodedLines
  split
  · next h => exact absurd h hsome
  · exact hlines

theorem isLine_encodedLines (v : Value) : ∀ l ∈ encodedLines v.dumps, IsLine l := by
  unfold encodedLines
  split
  · intro l hl c hc
    obtain rfl := List.mem_singleton.mp hl
    have := dumps_printable v c hc
    constructor <;> rintro rfl <;> revert this <;> decide
  · exact isLine_splitlinesFrom (by intro c hc; simp at hc)

/-! ## Parsing a frame -/

/-- The text is one event of that name and id, and its data decodes to the value. -/
def Decodes (text event id : Text) (v : Value) : Prop :=
  ∃ data, parse text = [⟨event, id, data⟩] ∧ loads data = some v

/-- The id that the parser keeps. -/
def keptId (eventId : Option Text) : Text :=
  match eventId with
  | none => []
  | some id => if '\x00' ∈ id then [] else id

def keptName (event : Text) : Text :=
  if event = [] then ['m', 'e', 's', 's', 'a', 'g', 'e'] else event

section Parse

variable {event : Text} {v : Value} {eventId : Option Text} {last : Bool} {s : Parser}

theorem isLine_append {l l' : Text} (hl : IsLine l) (hl' : IsLine l') : IsLine (l ++ l') := by
  intro c hc
  exact (List.mem_append.mp hc).elim (hl c) (hl' c)

/-- Lines joined and ended by LF. -/
theorem joinLines_unlines {lines : List Text} (h : lines ≠ []) :
    joinLines lines ++ ['\n'] = unlines lines := by
  induction lines with
  | nil => exact absurd rfl h
  | cons l lines ih =>
      cases lines with
      | nil => simp [joinLines, unlines, List.intercalate]
      | cons l' lines =>
          have hrest := ih (by simp)
          simp only [joinLines, unlines, List.intercalate, List.intersperse_cons_cons,
            List.flatten_cons, List.append_assoc, List.flatMap_cons] at hrest ⊢
          rw [hrest]

/-- The lines of a frame. -/
def sseLines (event : Text) (data : Value) (eventId : Option Text) (last : Bool) : List Text :=
  (if last then [] else eventId.toList.map idLine) ++ [eventLine event] ++ dataLines data ++
    (if last then eventId.toList.map idLine else []) ++ [[]]

theorem sse_eq : sse event v eventId last = unlines (sseLines event v eventId last) :=
  joinLines_unlines (by simp)

theorem dataLines_null : dataLines .null = [] := rfl

theorem dataLines_eq (hv : v ≠ .null) : dataLines v = (encodedLines v.dumps).map dataLine := by
  unfold dataLines
  split
  · exact absurd rfl hv
  · rw [jsonable_eq]

theorem isLine_idLines (hid : ∀ id, eventId = some id → IsLine id) :
    ∀ l ∈ eventId.toList.map idLine, IsLine l := by
  intro l hl
  obtain ⟨id, hmem, rfl⟩ := List.mem_map.mp hl
  exact isLine_append (by decide) (hid id (by simpa using hmem))

theorem isLine_sseLines (hevent : IsLine event) (hid : ∀ id, eventId = some id → IsLine id) :
    ∀ l ∈ sseLines event v eventId last, IsLine l := by
  have hids := isLine_idLines hid
  have hdata : ∀ l ∈ dataLines v, IsLine l := by
    intro l hl
    by_cases hv : v = .null
    · subst hv
      simp [dataLines_null] at hl
    · rw [dataLines_eq hv] at hl
      obtain ⟨d, hd, rfl⟩ := List.mem_map.mp hl
      exact isLine_append (by decide) (isLine_encodedLines v d hd)
  intro l hl
  simp only [sseLines, List.mem_append, List.mem_singleton] at hl
  rcases hl with (((hl | rfl) | hl) | hl) | rfl
  · cases last
    · exact hids l hl
    · simp at hl
  · exact isLine_append (by decide) hevent
  · exact hdata l hl
  · cases last
    · simp at hl
    · exact hids l hl
  · intro c hc
    simp at hc

theorem play_ids : s.play (eventId.toList.map idLine) =
    { s with lastId := if eventId.any ('\x00' ∉ ·) then eventId.getD [] else s.lastId } := by
  cases eventId with
  | none => rfl
  | some id =>
      change s.line (idLine id) = _
      rw [idLine, line_id]
      by_cases h : '\x00' ∈ id <;> simp [h]

theorem keptId_eq : keptId eventId = if eventId.any ('\x00' ∉ ·) then eventId.getD [] else [] := by
  cases eventId with
  | none => rfl
  | some id => by_cases h : '\x00' ∈ id <;> simp [keptId, h]

/-- The parser at the blank line, when the data lines are these. -/
theorem play_sseLines {ds : List Text} (hds : dataLines v = ds.map dataLine) :
    Parser.start.play (sseLines event v eventId last) =
      Parser.dispatch ⟨event, unlines ds, keptId eventId, []⟩ := by
  have hname (s : Parser) : s.play [eventLine event] = { s with name := event } := line_event
  have hdata (s : Parser) : s.play (ds.map dataLine) = { s with data := s.data ++ unlines ds } :=
    play_data ds
  have hnil (s : Parser) : s.play [] = s := rfl
  have hblank (s : Parser) : s.play [[]] = s.dispatch := rfl
  have hbefore : Parser.start.play ((if last then [] else eventId.toList.map idLine) ++
      [eventLine event] ++ ds.map dataLine ++ (if last then eventId.toList.map idLine else [])) =
      ⟨event, unlines ds, keptId eventId, []⟩ := by
    simp only [play_append]
    cases last
    · simp only [if_false, Bool.false_eq_true, play_ids, hname, hdata, hnil, keptId_eq]
      rfl
    · simp only [if_true, play_ids, hname, hdata, hnil, keptId_eq]
      rfl
  rw [sseLines, hds, play_append, hbefore, hblank]

/-- Without a data line there is no event. -/
theorem parse_sse_null (hevent : IsLine event) (hid : ∀ id, eventId = some id → IsLine id) :
    parse (sse event .null eventId last) = [] := by
  have hds : dataLines .null = ([] : List Text).map dataLine := rfl
  rw [sse_eq, parse_unlines (isLine_sseLines hevent hid), play_sseLines hds]
  rfl

theorem parse_sse (hevent : IsLine event) (hid : ∀ id, eventId = some id → IsLine id)
    (hv : v ≠ .null) : parse (sse event v eventId last) =
      [⟨keptName event, keptId eventId, smear isSeparator v.dumps⟩] := by
  rw [sse_eq, parse_unlines (isLine_sseLines hevent hid), play_sseLines (dataLines_eq hv),
    dispatch_data (unlines_encodedLines v)]
  rfl

/-- A frame of a wire has its text unchanged. -/
theorem parse_frame {str : Value → Text} {wire : List (Text × Value)}
    (hid : IsLine (str (seqOf wire))) : parse (frame str wire) =
      [⟨['e', 'v', 'e', 'n', 't'], keptId (some (str (seqOf wire))), (Value.obj wire).dumps⟩] := by
  have hdata : IsLine (Value.obj wire).dumps := by
    intro c hc
    have hprintable := dumps_printable _ c hc
    constructor <;> rintro rfl <;> revert hprintable <;> decide
  have htext : frame str wire = unlines [idLine (str (seqOf wire)),
      eventLine ['e', 'v', 'e', 'n', 't'], dataLine (Value.obj wire).dumps, []] := by
    simp [frame, unlines]
  have hlines : ∀ l ∈ [idLine (str (seqOf wire)), eventLine ['e', 'v', 'e', 'n', 't'],
      dataLine (Value.obj wire).dumps, []], IsLine l := by
    intro l hl
    simp only [List.mem_cons, List.not_mem_nil, or_false] at hl
    rcases hl with rfl | rfl | rfl | rfl
    · exact isLine_append (by decide) hid
    · decide
    · exact isLine_append (by decide) hdata
    · intro c hc
      simp at hc
  rw [htext, parse_unlines hlines]
  simp only [Parser.play, List.foldl_cons, List.foldl_nil]
  rw [idLine, line_id, eventLine, line_event, dataLine, line_data]
  change (Parser.dispatch _).events = _
  rw [dispatch_data (d := (Value.obj wire).dumps) (by split <;> rfl)]
  by_cases h : '\x00' ∈ str (seqOf wire) <;> simp [keptId, h, Parser.start]

end Parse

theorem keptName_eq_self {event : Text} : keptName event = event ↔ event ≠ [] := by
  unfold keptName
  split
  · next h => simp [h]
  · next h => simp [h]

theorem keptId_eq_self {eventId : Option Text} :
    keptId eventId = eventId.getD [] ↔ ∀ id, eventId = some id → '\x00' ∉ id := by
  cases eventId with
  | none => simp [keptId]
  | some id =>
      by_cases h : '\x00' ∈ id
      · have hne : id ≠ [] := by
          rintro rfl
          simp at h
        simp [keptId, h, hne.symm]
      · simp [keptId, h]

/-- A frame of `_sse` decodes to its value exactly when the value is not null and no string
of it has a separator of Python's own, the event has a name and the id has no NUL. A frame
of `_frame` decodes whenever its id has no NUL. -/
theorem framing_lossless_iff (event : Text) (v : Value) (eventId : Option Text) (last : Bool)
    (str : Value → Text) (wire : List (Text × Value)) (hevent : IsLine event)
    (hid : ∀ id, eventId = some id → IsLine id) (hseq : IsLine (str (seqOf wire))) :
    (Decodes (sse event v eventId last) event (eventId.getD []) v ↔
      v ≠ .null ∧ v.avoids isSeparator = true ∧ event ≠ [] ∧
        ∀ id, eventId = some id → '\x00' ∉ id) ∧
    (Decodes (frame str wire) ['e', 'v', 'e', 'n', 't'] (str (seqOf wire)) (.obj wire) ↔
      '\x00' ∉ str (seqOf wire)) := by
  refine ⟨?_, ?_⟩
  · by_cases hv : v = .null
    · subst hv
      simp [Decodes, parse_sse_null hevent hid]
    · have hloads := loads_smear isSeparator_wide v
      simp only [Decodes, parse_sse hevent hid hv, List.cons.injEq, and_true, Event.mk.injEq,
        keptName_eq_self, keptId_eq_self]
      constructor
      · rintro ⟨data, ⟨hname, hkept, rfl⟩, hdecode⟩
        rw [hloads] at hdecode
        refine ⟨hv, ?_, hname, hkept⟩
        by_contra havoids
        simp [havoids] at hdecode
      · rintro ⟨-, havoids, hname, hkept⟩
        refine ⟨_, ⟨hname, hkept, rfl⟩, ?_⟩
        rw [hloads, if_pos havoids]
  · have hloads := loads_dumps (.obj wire)
    have hkept : keptId (some (str (seqOf wire))) = str (seqOf wire) ↔ _ := keptId_eq_self
    simp only [Decodes, parse_frame hseq, List.cons.injEq, and_true, Event.mk.injEq, true_and]
    constructor
    · rintro ⟨data, ⟨hid, -⟩, -⟩
      exact hkept.mp hid _ rfl
    · intro h
      refine ⟨_, ⟨hkept.mpr ?_, rfl⟩, hloads⟩
      rintro id hsome
      obtain rfl := Option.some.inj hsome
      exact h

def someNumber : Value := .num ⟨['3', '1'], by decide⟩

/-- A state with a text of two lines, a letter outside ASCII and a list. -/
def someState : Value :=
  .obj [(['t'], .str ['é', '\n', '"']), (['n'], .arr [someNumber, .null, .bool true])]

/-- A wire with its number, whose payload has U+2028. -/
def someWire : List (Text × Value) :=
  [(['s', 'e', 'q'], someNumber), (['d'], .obj [(['v'], someState), (['l'], .str ['\u2028'])])]

/-- `str` of a number and of `None`. -/
def strOf : Value → Text
  | .num n => n.literal
  | _ => ['N', 'o', 'n', 'e']

theorem framing_lossless_iff_ascii :
    Decodes (sse ['v'] someState (some ['1', '-', '0']) true) ['v'] ['1', '-', '0'] someState ∧
      Decodes (frame strOf someWire) ['e', 'v', 'e', 'n', 't'] ['3', '1'] (.obj someWire) := by
  have h := framing_lossless_iff ['v'] someState (some ['1', '-', '0']) true strOf someWire
    (by decide)
    (fun id hid => by obtain rfl := Option.some.inj hid; decide)
    (by decide)
  refine ⟨h.1.mpr ⟨Value.noConfusion, by decide, by simp, ?_⟩, h.2.mpr (by decide)⟩
  intro id hid
  obtain rfl := Option.some.inj hid
  decide

/-- U+2028 is a character of a JSON string and a line boundary for `splitlines`. -/
theorem line_separator_breaks_frame :
    ¬ ∀ (event : Text) (v : Value) (eventId : Option Text) (last : Bool), IsLine event →
      (∀ id, eventId = some id → IsLine id) →
      Decodes (sse event v eventId last) event (eventId.getD []) v := by
  intro h
  have hevent : IsLine ['v'] := by decide
  have hid : ∀ id, (none : Option Text) = some id → IsLine id := nofun
  obtain ⟨data, hparse, hdecode⟩ := h ['v'] (.str ['a', '\u2028', 'b']) none false hevent hid
  rw [parse_sse hevent hid (by intro hnull; cases hnull)] at hparse
  have hdata : data = smear isSeparator (Value.str ['a', '\u2028', 'b']).dumps := by
    simp only [List.cons.injEq, Event.mk.injEq] at hparse
    exact hparse.1.2.2.symm
  rw [hdata, loads_smear isSeparator_wide, if_neg (by decide)] at hdecode
  cases hdecode

end GraphHarbor
