import Dogee.CsvCells
import Mathlib.Data.List.DropRight

/-!
# The calls for a file

With a callback that wants everything, the calls are those for the cells of the file, and one more for
what is in the buffer when the loop ends. That one is right when the last read has met the end of the
file. A read that ends with a newline has not, and neither has one that fills the buffer to the last
byte: then the text of that read is scanned once more, and what is left of it behind the last cell is
taken for a part of that cell.
-/

namespace Dogee.ParseCSV

open Stdio

section BehindLast

variable {a : Byte} {u w : List Byte}

end BehindLast

/-! ## The cells of a file -/

section ReadAll

variable {stop : Int} {acc str : List Byte} {t : Track}

theorem report_readAll (acc : List Byte) (hline : 0 ≤ t.line) :
    t.report readAll acc = ({ t with reports := t.reports ++ [⟨acc, t.line, t.cnt⟩] }, true) := if_pos hline

/-- The cells of a text are the calls so far and the unfinished cell. -/
theorem feed_readAll (stop : Int) (str acc : List Byte) (t : Track) (hline : 0 ≤ t.line) :
    (feed readAll stop str acc t).2.2 = true ∧ 0 ≤ (feed readAll stop str acc t).2.1.line ∧
      ((feed readAll stop str acc t).2.1.report readAll (feed readAll stop str acc t).1).1.reports =
        t.reports ++ cellsFrom acc t.line t.cnt str := by
  induction str generalizing acc t with
  | nil =>
      refine ⟨rfl, hline, ?_⟩
      rw [feed, report_readAll acc hline, cellsFrom]
  | cons b str ih =>
      have hmark : ∀ fp, t.mark readAll fp = t := fun fp => if_neg (fun h => absurd h.1 Bool.false_ne_true)
      rw [feed, cellsFrom, hmark, report_readAll acc hline]
      by_cases hnl : b = newline
      · have hnext := ih [] (Track.nextLine { t with reports := t.reports ++ [⟨acc, t.line, t.cnt⟩] })
          (Int.le_add_one hline)
        rw [if_pos hnl, if_pos hnl]
        simpa only [if_true, Track.nextLine, List.append_assoc, List.singleton_append] using hnext
      · rw [if_neg hnl, if_neg hnl]
        by_cases hco : b = comma
        · have hnext := ih [] (Track.nextCell { t with reports := t.reports ++ [⟨acc, t.line, t.cnt⟩] }) hline
          rw [if_pos hco, if_pos hco]
          simpa only [if_true, Track.nextCell, List.append_assoc, List.singleton_append] using hnext
        · rw [if_neg hco, if_neg hco]
          exact ih (acc ++ [b]) t hline

/-- The unfinished cell has no separators. -/
theorem plain_feed {cfg : Config} (stop : Int) (hacc : Plain acc) : Plain (feed cfg stop str acc t).1 := by
  induction str generalizing acc t with
  | nil => exact hacc
  | cons b str ih =>
      rw [feed]
      dsimp only
      split
      · split
        · exact ih ⟨List.not_mem_nil, List.not_mem_nil⟩
        · exact hacc
      · split
        · split
          · exact ih ⟨List.not_mem_nil, List.not_mem_nil⟩
          · exact hacc
        · rename_i hnl hco
          refine ih ⟨?_, ?_⟩
          · simpa using ⟨hacc.1, Ne.symm hnl⟩
          · simpa using ⟨hacc.2, Ne.symm hco⟩

theorem plain_cut (u : List Byte) : Plain (cut u) := by
  refine ⟨?_, ?_⟩ <;>
  · intro hmem
    obtain ⟨b, _, hb⟩ := List.mem_map.mp hmem
    split at hb
    · exact absurd hb (by decide)
    · rename_i hno
      exact hno (by rw [hb]; decide)

end ReadAll

/-! ## The last read -/

section LastRead

variable {acc chunk text rest : List Byte}

end LastRead

/-! ## The run over a file -/

namespace View

variable {v : View}

/-- The whole rest of the file, scanned at once. -/
def all (v : View) : List Byte × Track × Bool :=
  feed readAll (v.pos + v.rest.length) v.rest v.acc v.track

/-- What holds before every pass. -/
structure Ready (v : View) : Prop where
  acc : Plain v.acc
  stale : Plain v.stale
  accNul : (0 : Byte) ∉ v.acc
  restNul : (0 : Byte) ∉ v.rest
  line : 0 ≤ v.track.line
  short : ¬ v.Long readAll

theorem Ready.more (h : v.Ready) : (v.fed readAll).2.2 = true := (feed_readAll _ _ _ _ h.line).1

theorem Ready.chunkNul (h : v.Ready) : (0 : Byte) ∉ v.chunk :=
  fun hmem => h.restNul ((lineChunk_isPrefix _ _ : v.chunk <+: v.rest).subset hmem)

theorem Ready.after (h : v.Ready) : (v.after (v.fed readAll).1 (v.fed readAll).2.1).Ready where
  acc := plain_feed _ h.acc
  stale := by
    have hsub : ∀ b ∈ (v.after (v.fed readAll).1 (v.fed readAll).2.1).stale, b ∈ v.acc ++ cut v.chunk :=
      fun b hb => List.mem_of_mem_drop ((List.takeWhile_prefix _).subset hb)
    refine ⟨fun hmem => ?_, fun hmem => ?_⟩
    · rcases List.mem_append.mp (hsub _ hmem) with hm | hm
      · exact h.acc.1 hm
      · exact (plain_cut _).1 hm
    · rcases List.mem_append.mp (hsub _ hmem) with hm | hm
      · exact h.acc.2 hm
      · exact (plain_cut _).2 hm
  accNul := notMem_feed h.chunkNul v.acc h.accNul v.track
  restNul := fun hmem => h.restNul (List.mem_of_mem_drop hmem)
  line := (feed_readAll _ _ _ _ h.line).2.1
  short := fun hlong => h.short ((long_after h.more).mpr hlong)

end View

section File

variable {content : List Byte}

end File

end Dogee.ParseCSV
