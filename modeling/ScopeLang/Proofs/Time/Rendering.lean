import ScopeLang.Time.Format

/-!
# When a time format can be written

A format that can be taken apart can still have a part that only serves to read times. Such a format
is well-formed, and yet nothing can be written in it. A format without parts that ask the clock is
written in the same way at all times.

## Main definitions

* `TimeFormat.isForReading` — a well-formed format with a part that cannot be written.
* `TimeFormat.isClockFree` — a format that does not ask the clock.

## Main statements

* `TimeFormat.isSome_render_iff` — the formats that can be written.
* `TimeFormat.render_of_isClockFree` — what does not ask the clock does not depend on it.
-/

namespace ScopeLang.TimeFormat

variable {clock : Clock} {format : String}

/-- Serves the part only to read times? -/
def Piece.isForReading : Piece → Bool
  | .text _ => false
  | .directive d => d = "#z"

/-- Is the part written as the clock says? -/
def Piece.asksClock : Piece → Bool
  | .text _ => false
  | .directive d => d ∉ ["%", "n", "t", "#z"]

/-- Is the format well-formed, but with a part that only serves to read times? -/
def isForReading (format : String) : Bool := (pieces? format).any (·.any Piece.isForReading)

/-- Does no part of the format ask the clock? -/
def isClockFree (format : String) : Bool := (pieces? format).all (·.all (!·.asksClock))

theorem Piece.isSome_render (clock : Clock) (p : Piece) :
    (p.render clock).isSome = !p.isForReading := by
  cases p with
  | text c => rfl
  | directive d =>
    by_cases hz : d = "#z"
    · subst hz
      simp [render, isForReading]
    · simp only [render, isForReading, hz, if_false, decide_false, Bool.not_false]
      split
      · rfl
      · split
        · rfl
        · split <;> rfl

theorem Piece.render_of_not_asksClock {p : Piece} (h : p.asksClock = false) (clock clock' : Clock) :
    p.render clock = p.render clock' := by
  cases p with
  | text c => rfl
  | directive d =>
    have plain : d ∈ ["%", "n", "t", "#z"] := Decidable.of_not_not (of_decide_eq_false h)
    simp only [List.mem_cons, List.not_mem_nil, or_false] at plain
    rcases plain with rfl | rfl | rfl | rfl <;> rfl

/-- Parts can be written together if each of them can. -/
theorem isSome_mapM_iff {α β : Type} {f : α → Option β} {l : List α} :
    (l.mapM f).isSome = true ↔ ∀ a ∈ l, (f a).isSome = true := by
  induction l with
  | nil => simp
  | cons a l ih =>
    rw [List.mapM_cons, List.forall_mem_cons, ← ih]
    cases f a <;> cases l.mapM f <;> simp

theorem mapM_congr_of_mem {α β : Type} {f g : α → Option β} {l : List α}
    (h : ∀ a ∈ l, f a = g a) : l.mapM f = l.mapM g := by
  induction l with
  | nil => rfl
  | cons a l ih =>
    rw [List.forall_mem_cons] at h
    rw [List.mapM_cons, List.mapM_cons, h.1, ih h.2]

/-- A format can be written if it is well-formed and no part of it only serves to read times. -/
theorem isSome_render_iff : (render clock format).isSome = true ↔
    isValid format = true ∧ isForReading format = false := by
  simp only [render, isValid, isForReading]
  cases pieces? format with
  | none => simp
  | some ps =>
    have each : (ps.mapM (Piece.render clock)).isSome = true ↔ ∀ p ∈ ps, p.isForReading = false := by
      simp [isSome_mapM_iff, Piece.isSome_render]
    cases hall : ps.mapM (Piece.render clock) <;> simpa [hall] using each

/-- A format that does not ask the clock is written alike at all times. -/
theorem render_of_isClockFree (h : isClockFree format = true) (clock clock' : Clock) :
    render clock format = render clock' format := by
  simp only [render, isClockFree] at h ⊢
  cases hp : pieces? format with
  | none => rfl
  | some ps =>
    have quiet : ∀ p ∈ ps, p.asksClock = false := by simpa [hp] using h
    have all : ps.mapM (Piece.render clock) = ps.mapM (Piece.render clock') :=
      mapM_congr_of_mem fun p hmem => Piece.render_of_not_asksClock (quiet p hmem) clock clock'
    simp only [Option.bind_eq_bind, Option.bind_some, all]

end ScopeLang.TimeFormat
