import SingleTape.CommandLine.Session
import SingleTape.Proofs.Tape.Symbols

/-!
# Lines of text

What is printed is a list of lines, each of which is followed by a line feed.  A line that holds a
line feed itself becomes several lines of text.  Numbers and states never hold one, so it can only
come from the tape.

## Key results

- `CommandLine.afterLine_text`: the text without its first line
- `CommandLine.not_mem_stepLine_start`: the line for a machine at the beginning is one line of text,
  unless there is a line feed on the initial tape
-/

namespace SingleTape.CommandLine

/-- Lines as they are printed. -/
def text (lines : List String) : List Char :=
  lines.flatMap fun line => line.toList ++ ['\n']

/-- A text without its first line. -/
def afterLine (cs : List Char) : List Char :=
  (cs.dropWhile (· ≠ '\n')).tail

theorem afterLine_text {line : String} (h : '\n' ∉ line.toList) (lines : List String) :
    afterLine (text (line :: lines)) = text lines := by
  have hline : ∀ c ∈ line.toList, decide (c ≠ '\n') = true := by
    intro c hc
    rw [decide_eq_true_eq]
    intro hfeed
    exact h (hfeed ▸ hc)
  rw [text, List.flatMap_cons, List.append_assoc, afterLine, List.dropWhile_append_of_pos hline]
  rfl

/-- A number is printed with digits and perhaps a sign. -/
theorem not_mem_number (n : Int) : '\n' ∉ (number n).toList := by
  have hdigits : ∀ k, '\n' ∉ Text.digits k := by
    intro k hmem
    have hdigit := Nat.isDigit_of_mem_toDigits (by decide) (by decide) hmem
    cases hdigit
  rw [number, String.toList_ofList]
  cases n with
  | ofNat k => exact hdigits k
  | negSucc k =>
    rw [Text.signed, List.mem_cons, not_or]
    exact ⟨by decide, hdigits (k + 1)⟩

/-- What is shown of a tape was stored on it. -/
theorem not_mem_tapeLine {m : Machine} (h : ∀ i, m.tape.read i ≠ '\n') :
    '\n' ∉ (tapeLine m).toList := by
  have hshown : ∀ i, Symbol.shown (m.tape.read i) ≠ '\n' := by
    intro i
    unfold Symbol.shown
    split
    · decide
    · exact h i
  rw [tapeLine, String.toList_ofList, Tape.window]
  simp only [List.mem_map, not_exists, not_and]
  intro c hc
  obtain ⟨k, -, rfl⟩ := hc
  exact hshown _

/-- The initial tape holds what is loaded, and blanks. -/
theorem read_start_ne {program : Program} (h : '\n' ∉ program.initialTape.toList) (i : Int) :
    (Machine.start program).tape.read i ≠ '\n' := by
  apply Tape.read_load_of_forall (P := (· ≠ '\n'))
  · intro i
    rw [Tape.read_empty]
    decide
  · intro c hc
    unfold Symbol.stored
    split
    · decide
    · intro hfeed
      exact h (hfeed ▸ hc)

theorem not_mem_append {s t : String} (hs : '\n' ∉ s.toList) (ht : '\n' ∉ t.toList) :
    '\n' ∉ (s ++ t).toList := by
  rw [String.toList_append, List.mem_append, not_or]
  exact ⟨hs, ht⟩

theorem not_mem_stepLine {m : Machine} (hstate : '\n' ∉ m.state.name.toList)
    (htape : ∀ i, m.tape.read i ≠ '\n') : '\n' ∉ (stepLine m).toList := by
  have hsteps := not_mem_append (s := "Step: ") (by decide) (not_mem_number m.transitions.toNat)
  have hnamed := not_mem_append (not_mem_append hsteps (t := ", State: ") (by decide)) hstate
  have hplaced := not_mem_append (not_mem_append hnamed (t := ", Head: ") (by decide))
    (not_mem_number m.position.val)
  have hshown := not_mem_append (not_mem_append hplaced (t := ", Tape: [") (by decide))
    (not_mem_tapeLine htape)
  exact not_mem_append hshown (by decide)

theorem not_mem_stepLine_start {program : Program} (h : '\n' ∉ program.initialTape.toList) :
    '\n' ∉ (stepLine (.start program)).toList := by
  have hstate : '\n' ∉ StateId.initial.name.toList := by decide
  exact not_mem_stepLine hstate (read_start_ne h)

end SingleTape.CommandLine
