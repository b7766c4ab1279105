import Dogee.ParseCSV

/-!
# The cells of a table, and when reading one ends

A table is cut at newlines into lines and each line at commas into cells. The unfinished cell stays at
the front of the buffer, and the next read has the room behind it. A cell that takes all of it but the
last byte leaves room for the NUL only: nothing more is read, and the loop goes on for ever. It ends on
every other file, and also when the callback gives up in front of such a cell.
-/

namespace Dogee.ParseCSV

open Stdio

/-! ## Cells -/

/-- The same cells, from left to right: the text follows `acc`, which is the beginning of a cell. -/
def cellsFrom (acc : List Byte) (line : Int) (cnt : Nat) : List Byte → List Report
  | [] => [⟨acc, line, cnt⟩]
  | b :: rest =>
      if b = newline then ⟨acc, line, cnt⟩ :: cellsFrom [] (line + 1) 0 rest
      else if b = comma then ⟨acc, line, cnt⟩ :: cellsFrom [] line (cnt + 1) rest
      else cellsFrom (acc ++ [b]) line cnt rest

/-- Neither a newline nor a comma. -/
def Plain (u : List Byte) : Prop := newline ∉ u ∧ comma ∉ u

/-- The same of the loop: some part of the text makes the unfinished cell so long. -/
def Long (cfg : Config) (pos : Int) (acc rest : List Byte) (t : Track) : Prop :=
  ∃ u, u <+: rest ∧ (feed cfg (pos + u.length) u acc t).2.2 = true ∧
    bufSize - 1 ≤ (feed cfg (pos + u.length) u acc t).1.length

section Cells

variable {cfg : Config} {hist cells : List Report}

end Cells

section Long

variable {cfg : Config} {pos : Int} {acc rest : List Byte} {t : Track}

end Long

/-! ## The end of the loop -/

namespace View

variable {cfg : Config} {v : View}

/-- The text from here on has a cell that fills the buffer. -/
def Long (cfg : Config) (v : View) : Prop := ParseCSV.Long cfg v.pos v.acc v.rest v.track

theorem chunk_append_drop (v : View) : v.chunk ++ v.rest.drop v.chunk.length = v.rest := lineChunk_append_drop _ _

theorem feed_chunk_append (v : View) (u : List Byte)
    (hmore : (v.fed cfg).2.2 = true) :
    feed cfg (v.pos + (v.chunk ++ u).length) (v.chunk ++ u) v.acc v.track =
      feed cfg ((v.pos + v.chunk.length : Nat) + u.length) u
        (v.fed cfg).1 (v.fed cfg).2.1 := by
  have hstop : (v.pos + (v.chunk ++ u).length : Int) = (v.pos + v.chunk.length : Nat) + u.length := by
    rw [List.length_append]
    omega
  rw [fed] at hmore
  rw [feed_append, hstop, Int.add_sub_cancel, if_pos hmore, fed]

/-- The text up to where a cell fills the buffer has the next chunk in it. -/
theorem chunk_isPrefix_of_long {u : List Byte} (hpre : u <+: v.rest)
    (hlen : bufSize - 1 ≤ (feed cfg (v.pos + u.length) u v.acc v.track).1.length) : v.chunk <+: u := by
  have hchunk : v.chunk <+: v.rest := lineChunk_isPrefix _ _
  have hroom : v.chunk.length ≤ bufSize - 1 - v.acc.length := length_lineChunk_le _ _
  have hle : bufSize - 1 ≤ v.acc.length + u.length := Nat.le_trans hlen (length_feed_le _ u v.acc v.track)
  exact List.prefix_of_prefix_length_le hchunk hpre (by omega)

/-- A pass that goes on leaves the long cells in the rest of the file. -/
theorem long_after (hmore : (v.fed cfg).2.2 = true) :
    v.Long cfg ↔ (v.after (v.fed cfg).1 (v.fed cfg).2.1).Long cfg := by
  constructor
  · rintro ⟨u, hpre, hu, hlen⟩
    obtain ⟨u, rfl⟩ := chunk_isPrefix_of_long hpre hlen
    rw [feed_chunk_append v u hmore] at hu hlen
    refine ⟨u, ?_, hu, hlen⟩
    rw [← v.chunk_append_drop] at hpre
    exact (List.prefix_append_right_inj _).mp hpre
  · rintro ⟨u, hpre, hu, hlen⟩
    refine ⟨v.chunk ++ u, ?_, ?_, ?_⟩
    · rw [← v.chunk_append_drop]
      exact (List.prefix_append_right_inj _).mpr hpre
    · rw [feed_chunk_append v u hmore]
      exact hu
    · rw [feed_chunk_append v u hmore]
      exact hlen

end View

/-- A callback that wants everything, from the first line on. -/
def readAll : Config := ⟨fun _ => true, 0, false⟩

end Dogee.ParseCSV
