import Dogee.Stdio
import Dogee.Text
import Mathlib.Logic.Function.Basic

/-!
# Reading a table

`ParseCSV` reads a file with `fgets` into a buffer of `bufSize` bytes. It cuts the text at commas and
newlines by writing NULs into the buffer and calls `func` for each piece; the rest of the last piece is
moved to the front of the buffer, and the next read goes behind it. When a read finds nothing but the
end of the file, the buffer still has what the read before has left in it, and that is scanned again.

The callback may answer by everything it has been called with. `garbage` is what the buffer has before
anything is written to it. A run that leaves the buffer or uses up the fuel has no result. Lines and
file positions are unbounded here.

The second half of the file gives the same loop without a buffer: what the unfinished cell is, and which
string the next read finds when there is nothing to read.
-/

namespace Dogee.ParseCSV

open Stdio

def comma : Byte := 44

/-- The size of `buf`. -/
def bufSize : Nat := 2048

/-- A call of `func`. -/
structure Report where
  cell : List Byte
  line : Int
  index : Nat
deriving DecidableEq

structure Config where
  /-- what `func` answers, given all its calls up to this one -/
  func : List Report → Bool
  skipToLine : Int
  useCache : Bool

/-- Where the scan is in the table, the calls so far, and the offset written to the cache file. -/
structure Track where
  line : Int
  cnt : Nat
  reports : List Report
  written : Option Int
deriving DecidableEq

namespace Track

/-- `if (line >= skip_to_line && !func(cell, line, cnt)) return;` -/
def report (cfg : Config) (t : Track) (cell : List Byte) : Track × Bool :=
  if cfg.skipToLine ≤ t.line then
    ({ t with reports := t.reports ++ [⟨cell, t.line, t.cnt⟩] },
      cfg.func (t.reports ++ [⟨cell, t.line, t.cnt⟩]))
  else (t, true)

/-- Write the offset behind the last line that is skipped. -/
def mark (cfg : Config) (t : Track) (fp : Int) : Track :=
  if cfg.useCache ∧ t.line + 1 = cfg.skipToLine then { t with written := some fp } else t

def nextLine (t : Track) : Track := { t with line := t.line + 1, cnt := 0 }

def nextCell (t : Track) : Track := { t with cnt := t.cnt + 1 }

end Track

/-! ## The loop on the buffer -/

structure State extends Track where
  buf : List Byte
  lagacy : Nat
  last : Nat
  f : Stream

/-- The state after a scan, the end of the scan, and whether the callback wants more. -/
structure Scanned where
  state : State
  p : Nat
  more : Bool

/-- `while (*p)`: the bytes from `p` on are those of the buffer. -/
def scan (cfg : Config) : List Byte → Nat → State → Option Scanned
  | [], _, _ => none
  | b :: rest, p, s =>
      if b = 0 then some ⟨s, p, true⟩
      else if b = newline then
        -- `fp = ftell(f) - (strlen(p) - 1)`
        let t := s.toTrack.mark cfg (s.f.pos - ((cString s.buf p).length - 1 : Int))
        let buf := s.buf.set p 0
        let (t, more) := t.report cfg (cString buf s.last)
        if more then scan cfg rest (p + 1) { s with toTrack := t.nextLine, buf := buf, last := p + 1 }
        else some ⟨{ s with toTrack := t, buf := buf }, p, false⟩
      else if b = comma then
        let buf := s.buf.set p 0
        let (t, more) := s.toTrack.report cfg (cString buf s.last)
        if more then scan cfg rest (p + 1) { s with toTrack := t.nextCell, buf := buf, last := p + 1 }
        else some ⟨{ s with toTrack := t, buf := buf }, p, false⟩
      else scan cfg rest (p + 1) s

inductive Next
  | again (s : State)
  | broke (s : State)
  | returned (s : State)

/-- One pass of the read loop. -/
def pass (cfg : Config) (s : State) : Option Next := do
  let r := s.f.fgets (bufSize - s.lagacy)
  let buf := match r.1 with
    | some bytes => store s.buf s.lagacy (bytes ++ [0])
    | none => s.buf
  let r ← scan cfg (buf.drop s.lagacy) s.lagacy { s with f := r.2, buf := buf, last := 0 }
  if r.more = false then return .returned r.state
  else if r.p = 0 ∨ r.state.f.eof then return .broke r.state
  else
    let lagacy := r.p - r.state.last
    return .again { r.state with lagacy := lagacy, buf := moveToFront r.state.buf r.state.last lagacy }

/-- The read loop, with the call for the last cell after it. -/
def loop (cfg : Config) : Nat → State → Option Track
  | 0, _ => none
  | fuel + 1, s => do
      match ← pass cfg s with
      | .again s => loop cfg fuel s
      | .broke s => some (s.toTrack.report cfg (cString s.buf s.last)).1
      | .returned s => some s.toTrack

/-- The files beside the table, by name. -/
abbrev Files := Text → Option Text

/-- `path << "." << mark << ".cache"` -/
def cacheName (path : Text) (mark : Int) : Text := path ++ '.' :: (Text.decimal mark ++ ".cache".toList)

/-- Before the first pass; the offset is what the cache file has, if it is used and there. -/
def start (content : List Byte) (garbage : Nat → Byte) (skipToLine : Int) (cache : Option Int) : State where
  buf := 0 :: (List.range (bufSize - 1)).map garbage
  lagacy := 0
  last := 0
  f := .openAt content (cache.getD 0)
  line := if cache.isSome then skipToLine else 0
  cnt := 0
  reports := []
  written := none

/-- The offset that a run starts from. -/
def cached (cfg : Config) (path : Text) (files : Files) : Option Int :=
  if cfg.useCache then (files (cacheName path cfg.skipToLine)).map Text.readInt else none

/-- What a scan makes of a string: the unfinished cell goes on, and `stop` is the position in the file
behind the string. -/
def feed (cfg : Config) (stop : Int) : List Byte → List Byte → Track → List Byte × Track × Bool
  | [], acc, t => (acc, t, true)
  | b :: rest, acc, t =>
      if b = newline then
        let r := (t.mark cfg (stop - rest.length)).report cfg acc
        if r.2 then feed cfg stop rest [] r.1.nextLine else (acc, r.1, false)
      else if b = comma then
        let r := t.report cfg acc
        if r.2 then feed cfg stop rest [] r.1.nextCell else (acc, r.1, false)
      else feed cfg stop rest (acc ++ [b]) t

/-- The separators of a string are overwritten. -/
def cut (bytes : List Byte) : List Byte := bytes.map fun b => if b = newline ∨ b = comma then 0 else b

/-- The unfinished cell, the string that follows it in the buffer, and the rest of the file. -/
structure View where
  acc : List Byte
  stale : List Byte
  rest : List Byte
  pos : Nat
  track : Track

namespace View

inductive Next
  | again (v : View)
  | broke (acc : List Byte) (t : Track)
  | returned (t : Track)

/-- The bytes that the next read brings. -/
def chunk (v : View) : List Byte := lineChunk (bufSize - 1 - v.acc.length) v.rest

/-- The read meets the end of the file. -/
def AtEnd (v : View) : Prop := v.chunk.length < bufSize - 1 - v.acc.length ∧ newline ∉ v.chunk

instance (v : View) : Decidable v.AtEnd := inferInstanceAs (Decidable (_ ∧ _))

/-- What the scan makes of them. -/
def fed (cfg : Config) (v : View) : List Byte × Track × Bool :=
  feed cfg (v.pos + v.chunk.length : Nat) v.chunk v.acc v.track

/-- Behind the new unfinished cell the buffer has the text of this pass, with its separators
overwritten. -/
def after (v : View) (acc : List Byte) (t : Track) : View where
  acc := acc
  stale := cString (v.acc ++ cut v.chunk) acc.length
  rest := v.rest.drop v.chunk.length
  pos := v.pos + v.chunk.length
  track := t

/-- One pass. A cell that fills the buffer leaves no room to read anything. -/
def pass (cfg : Config) (v : View) : Next :=
  if bufSize - 1 ≤ v.acc.length then .again v
  else if v.rest = [] then
    let r := feed cfg v.pos v.stale v.acc v.track
    if r.2.2 then .broke r.1 r.2.1 else .returned r.2.1
  else if (v.fed cfg).2.2 then
    (if v.AtEnd then .broke (v.fed cfg).1 (v.fed cfg).2.1 else .again (v.after (v.fed cfg).1 (v.fed cfg).2.1))
  else .returned (v.fed cfg).2.1

def loop (cfg : Config) : Nat → View → Option Track
  | 0, _ => none
  | fuel + 1, v =>
      match v.pass cfg with
      | .again v => loop cfg fuel v
      | .broke acc t => some (t.report cfg acc).1
      | .returned t => some t

end View

/-! ## The buffer shows the view -/

/-- The buffer begins with the unfinished cell and the string behind it. -/
structure Shows (s : State) (v : View) : Prop where
  track : s.toTrack = v.track
  f : s.f = ⟨v.rest, v.pos, false⟩
  lagacy : s.lagacy = v.acc.length
  size : s.buf.length = bufSize
  buf : ∃ junk, s.buf = v.acc ++ (v.stale ++ 0 :: junk)
  acc : (0 : Byte) ∉ v.acc
  stale : (0 : Byte) ∉ v.stale
  rest : (0 : Byte) ∉ v.rest

section Scan

variable {cfg : Config}

/-- What a scan has left, given what the string says: `whole` is the text in front of the NUL that
ends it, with the unfinished cell last. -/
structure Found (out : List Byte × Track × Bool) (f : Stream) (whole junk : List Byte) (r : Scanned) : Prop where
  track : r.state.toTrack = out.2.1
  more : r.more = out.2.2
  left : r.more = true → ∃ done, r.state.buf = done ++ (out.1 ++ 0 :: junk) ∧ r.state.last = done.length ∧
    r.p = done.length + out.1.length ∧ done ++ out.1 = whole ∧ r.state.f = f

/-- A byte is added to the cell, or it ends the cell, or the callback wants no more. -/
theorem feed_cons (stop : Int) (b : Byte) (str acc : List Byte) (t : Track) :
    feed cfg stop (b :: str) acc t = feed cfg stop str (acc ++ [b]) t ∨
      (∃ t', feed cfg stop (b :: str) acc t = feed cfg stop str [] t') ∨
      ∃ t', feed cfg stop (b :: str) acc t = (acc, t', false) := by
  rw [feed]
  dsimp only
  split
  · split
    · exact Or.inr (Or.inl ⟨_, rfl⟩)
    · exact Or.inr (Or.inr ⟨_, rfl⟩)
  · split
    · split
      · exact Or.inr (Or.inl ⟨_, rfl⟩)
      · exact Or.inr (Or.inr ⟨_, rfl⟩)
    · exact Or.inl rfl

theorem notMem_feed {stop : Int} {str : List Byte} (hstr : (0 : Byte) ∉ str) (acc : List Byte) (hacc : (0 : Byte) ∉ acc)
    (t : Track) : (0 : Byte) ∉ (feed cfg stop str acc t).1 := by
  induction str generalizing acc t with
  | nil => exact hacc
  | cons b str ih =>
      rw [List.mem_cons, not_or] at hstr
      rcases feed_cons stop b str acc t with h | ⟨t', h⟩ | ⟨t', h⟩ <;> rw [h]
      · exact ih hstr.2 (acc ++ [b]) (by simpa using ⟨hacc, hstr.1⟩) t
      · exact ih hstr.2 [] List.not_mem_nil t'
      · exact hacc

end Scan

section Pass

variable {cfg : Config} {s : State} {v : View}

/-- The outcome of a pass is that of the view. -/
inductive Agrees : Next → View.Next → Prop
  | again {s : State} {v : View} (h : Shows s v) : Agrees (.again s) (.again v)
  | broke {s : State} {acc : List Byte} {t : Track} (htrack : s.toTrack = t) (hcell : cString s.buf s.last = acc) :
      Agrees (.broke s) (.broke acc t)
  | returned {s : State} {t : Track} (htrack : s.toTrack = t) : Agrees (.returned s) (.returned t)

/-- The view before the first pass. -/
def View.start (content : List Byte) (skipToLine : Int) (cache : Option Int) : View where
  acc := []
  stale := []
  rest := (Stream.openAt content (cache.getD 0)).rest
  pos := (Stream.openAt content (cache.getD 0)).pos
  track := ⟨if cache.isSome then skipToLine else 0, 0, [], none⟩

end Pass

section Feed

variable {cfg : Config}

/-- A text is fed in two parts. -/
theorem feed_append (stop : Int) (u w acc : List Byte) (t : Track) :
    feed cfg stop (u ++ w) acc t =
      if (feed cfg (stop - w.length) u acc t).2.2 then
        feed cfg stop w (feed cfg (stop - w.length) u acc t).1 (feed cfg (stop - w.length) u acc t).2.1
      else feed cfg (stop - w.length) u acc t := by
  induction u generalizing acc t with
  | nil => rw [List.nil_append, feed, if_pos rfl]
  | cons b u ih =>
      have hstop : stop - (u ++ w).length = stop - w.length - u.length := by
        rw [List.length_append]
        omega
      rw [List.cons_append, feed, feed, hstop]
      dsimp only
      split
      · split
        · exact ih [] _
        · exact (if_neg Bool.false_ne_true).symm
      · split
        · split
          · exact ih [] _
          · exact (if_neg Bool.false_ne_true).symm
        · exact ih _ t

/-- The unfinished cell grows by what is fed. -/
theorem length_feed_le (stop : Int) (str acc : List Byte) (t : Track) :
    (feed cfg stop str acc t).1.length ≤ acc.length + str.length := by
  induction str generalizing acc t with
  | nil => exact Nat.le_refl _
  | cons b str ih =>
      rw [List.length_cons]
      rcases feed_cons stop b str acc t with h | ⟨t', h⟩ | ⟨t', h⟩ <;> rw [h]
      · exact Nat.le_trans (ih _ t) (by rw [List.length_append, List.length_singleton]; omega)
      · exact Nat.le_trans (ih [] t') (by rw [List.length_nil]; omega)
      · exact Nat.le_add_right _ _

end Feed

end Dogee.ParseCSV
