import Dogee.CsvCalls

/-!
# The line cache

`ParseCSV` and `SkipFileToLine` leave the offset of line `m` in a file of its own, and a later run
starts there. A read never goes over a newline, so the run that has come to line `m` by itself stands
where the run from the cache begins: with an empty cell, at the same place of the file, and without a
call so far. What the buffer still has from the lines before is overwritten by the next read.
-/

namespace Dogee.ParseCSV

open Stdio

section Skip

variable {cfg : Config} {stop : Int} {str acc : List Byte} {t : Track}

end Skip

/-! ## Coming to a line -/

namespace View

variable {cfg : Config} {v : View}

end View

/-! ## The rest of the run -/

/-- The same place and the same calls, whatever has been written. -/
def Track.Alike (t t' : Track) : Prop := t.line = t'.line ∧ t.cnt = t'.cnt ∧ t.reports = t'.reports

section Alike

variable {cfg : Config} {t t' : Track}

end Alike

namespace View

variable {cfg : Config} {v v' : View}

/-- Two views from which the same calls are made. -/
structure Alike (v v' : View) : Prop where
  acc : v.acc = v'.acc
  stale : v.rest = [] → v.stale = v'.stale
  rest : v.rest = v'.rest
  pos : v.pos = v'.pos
  track : v.track.Alike v'.track

inductive Next.Alike : Next → Next → Prop
  | again {v v' : View} (h : v.Alike v') : Next.Alike (.again v) (.again v')
  | broke {acc : List Byte} {t t' : Track} (h : t.Alike t') : Next.Alike (.broke acc t) (.broke acc t')
  | returned {t t' : Track} (h : t.Alike t') : Next.Alike (.returned t) (.returned t')

end View

/-! ## The cache is faithful -/

section Cache

variable {content : List Byte} {m offset : Nat}

end Cache

end Dogee.ParseCSV
