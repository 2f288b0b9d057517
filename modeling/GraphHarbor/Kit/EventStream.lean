import Mathlib.Data.List.Basic

/-!
# Event streams

The parser of a server-sent event stream: lines end at CR, LF or CRLF, a line is a field, a
comment or the blank line that dispatches the event. `parse_unlines` reduces the parser to
its lines, and `play_data` joins the data lines of one event.
-/

namespace Kit.EventStream

/-- A dispatched event. -/
structure Event where
  name : List Char
  id : List Char
  data : List Char
  deriving DecidableEq

/-- The buffers of the parser and the events it dispatched. -/
structure Parser where
  name : List Char
  data : List Char
  lastId : List Char
  events : List Event

def Parser.start : Parser := ⟨[], [], [], []⟩

/-! ## Lines -/

def IsLine (l : List Char) : Prop := ∀ c ∈ l, c ≠ '\n' ∧ c ≠ '\r'

instance : DecidablePred IsLine :=
  fun _ => decidable_of_iff _ List.forall_iff_forall_mem

/-- The terminated lines, the first of which begins with `line`. -/
def linesFrom (line : List Char) : List Char → List (List Char)
  | [] => []
  | '\r' :: '\n' :: t => line :: linesFrom [] t
  | c :: t => if c = '\n' ∨ c = '\r' then line :: linesFrom [] t else linesFrom (line ++ [c]) t

def unlines (ls : List (List Char)) : List Char := ls.flatMap (· ++ ['\n'])

section Lines

variable {l t line : List Char}

theorem linesFrom_cons {c : Char} (h : c ≠ '\n' ∧ c ≠ '\r') :
    linesFrom line (c :: t) = linesFrom (line ++ [c]) t := by
  rw [linesFrom, if_neg fun hor => hor.elim h.1 h.2]
  intro _ hc _
  exact h.2 hc

theorem linesFrom_append (hl : IsLine l) : linesFrom line (l ++ t) = linesFrom (line ++ l) t := by
  induction l generalizing line with
  | nil => simp
  | cons c l ih =>
      rw [List.cons_append, linesFrom_cons (hl c (by simp)), ih fun d hd => hl d (by simp [hd])]
      simp

/-- Lines that end at LF are read back. -/
theorem linesFrom_unlines {ls : List (List Char)} (hls : ∀ l ∈ ls, IsLine l) :
    linesFrom [] (unlines ls) = ls := by
  induction ls with
  | nil => rfl
  | cons l ls ih =>
      have htext : unlines (l :: ls) = l ++ '\n' :: unlines ls := by simp [unlines]
      rw [htext, linesFrom_append (hls l (by simp)), List.nil_append]
      simp [linesFrom, ih fun l hl => hls l (by simp [hl])]

end Lines

/-! ## Fields -/

/-- The blank line. Without data no event is dispatched. -/
def Parser.dispatch (s : Parser) : Parser :=
  if s.data = [] then { s with name := [] }
  else
    let name := if s.name = [] then ['m', 'e', 's', 's', 'a', 'g', 'e'] else s.name
    let data := if s.data.getLast? = some '\n' then s.data.dropLast else s.data
    { s with name := [], data := [], events := s.events ++ [⟨name, s.lastId, data⟩] }

/-- A field. An id with a NUL is ignored, and so is a field of another name. -/
def Parser.field (s : Parser) (field value : List Char) : Parser :=
  if field = ['e', 'v', 'e', 'n', 't'] then { s with name := value }
  else if field = ['d', 'a', 't', 'a'] then { s with data := s.data ++ value ++ ['\n'] }
  else if field = ['i', 'd'] then
    if '\x00' ∈ value then s else { s with lastId := value }
  else s

/-- One space after the colon is not part of the value. -/
def stripSpace : List Char → List Char
  | ' ' :: t => t
  | t => t

/-- A line that starts with a colon is a comment. -/
def Parser.line (s : Parser) (l : List Char) : Parser :=
  if l = [] then s.dispatch
  else if l.head? = some ':' then s
  else s.field (l.takeWhile (· ≠ ':')) (stripSpace (l.dropWhile (· ≠ ':')).tail)

def Parser.play (s : Parser) (ls : List (List Char)) : Parser := ls.foldl Parser.line s

/-- The events of a text. -/
def parse (t : List Char) : List Event := (Parser.start.play (linesFrom [] t)).events

section Fields

variable {s : Parser} {value : List Char}

theorem parse_unlines {ls : List (List Char)} (hls : ∀ l ∈ ls, IsLine l) :
    parse (unlines ls) = (Parser.start.play ls).events := by
  rw [parse, linesFrom_unlines hls]

theorem line_event : s.line (['e', 'v', 'e', 'n', 't', ':', ' '] ++ value) =
    { s with name := value } := by
  simp [Parser.line, stripSpace, Parser.field]

theorem line_data : s.line (['d', 'a', 't', 'a', ':', ' '] ++ value) =
    { s with data := s.data ++ value ++ ['\n'] } := by
  simp [Parser.line, stripSpace, Parser.field]

theorem line_id : s.line (['i', 'd', ':', ' '] ++ value) =
    if '\x00' ∈ value then s else { s with lastId := value } := by
  simp [Parser.line, stripSpace, Parser.field]

theorem play_append {ls ls' : List (List Char)} :
    s.play (ls ++ ls') = (s.play ls).play ls' := List.foldl_append

/-- The data lines of an event, joined. -/
theorem play_data (ds : List (List Char)) :
    s.play (ds.map fun d => ['d', 'a', 't', 'a', ':', ' '] ++ d) =
      { s with data := s.data ++ unlines ds } := by
  induction ds generalizing s with
  | nil => simp [Parser.play, unlines]
  | cons d ds ih =>
      have hfirst : s.line (['d', 'a', 't', 'a', ':', ' '] ++ d) =
        { s with data := s.data ++ d ++ ['\n'] } := line_data
      simp only [Parser.play] at ih
      simp only [Parser.play, List.map_cons, List.foldl_cons, hfirst, ih]
      simp [unlines]

/-- The last line feed is not part of the data. -/
theorem dispatch_data {d : List Char} (h : s.data = d ++ ['\n']) :
    s.dispatch = { s with
      name := []
      data := []
      events := s.events ++
        [⟨if s.name = [] then ['m', 'e', 's', 's', 'a', 'g', 'e'] else s.name, s.lastId, d⟩] } := by
  rw [Parser.dispatch, if_neg (by simp [h])]
  simp [h]

end Fields

end Kit.EventStream
