import SingleTape.CommandLine.Session
import SingleTape.Proofs.Engine.Calls

/-!
# Playing a session

A session is played by a host, who takes its turns, and by the worker of a computation, who may act
any number of times between two of them.  A host that waits for the computation may also wake up
between two turns, and then it need not look for the result at its next turn.  `Session.playBy`
plays a session to a list of beats, at whatever pace.  `Session.play` is the special case of even
beats, all of them turns.

`Session.ComesTo` is what can be said of a session to any beats: it comes to the given end, or there
were too few turns for it to end at all.

## Key results

- `Session.play_eq_playBy`: playing at a fixed pace is playing to even beats
- `CommandLine.execute_of_comesTo`: what the program prints, from what its session comes to
-/

namespace SingleTape

/-- What happens next in the playing of a session, after some nanoseconds. -/
inductive Beat where
  /-- The worker of a computation acts. -/
  | work (nanoseconds : Nat)
  /-- The session takes a turn. -/
  | turn (nanoseconds : Nat)
  /-- The host wakes up from waiting for a computation, by its timer or by the worker. -/
  | wake (byTimer : Bool) (nanoseconds : Nat)

namespace Beat

/-- The time that passes before it happens. -/
def nanoseconds : Beat → Nat
  | work d => d
  | turn d => d
  | wake _ d => d

/-- Tells whether it is a turn. -/
def isTurn : Beat → Bool
  | turn _ => true
  | work _ | wake _ _ => false

end Beat

namespace Session

open CommandLine

/-- The number of turns. -/
def turns (beats : List Beat) : Nat :=
  beats.countP (·.isTurn)

/-- The time that passes, apart from the time that the session asks for. -/
def elapsed (beats : List Beat) : Nat :=
  beats.foldr (·.nanoseconds + ·) 0

theorem turns_of_not_isTurn {b : Beat} (h : b.isTurn = false) (beats : List Beat) :
    turns (b :: beats) = turns beats := by
  simp [turns, h]

@[simp] theorem turns_turn (d : Nat) (beats : List Beat) :
    turns (.turn d :: beats) = turns beats + 1 := by
  simp [turns, Beat.isTurn]

@[simp] theorem elapsed_cons (b : Beat) (beats : List Beat) :
    elapsed (b :: beats) = b.nanoseconds + elapsed beats :=
  rfl

theorem elapsed_replicate_turn (n pace : Nat) :
    elapsed (List.replicate n (.turn pace)) = n * pace := by
  induction n with
  | zero => simp [elapsed]
  | succ n ih =>
    rw [List.replicate_succ, elapsed_cons, ih, Nat.succ_mul, Nat.add_comm]
    rfl

/-- The session after the host woke up between two turns, and the lines that are printed then. -/
def wake (s : Session) (byTimer : Bool) (now : Nat) : Session × List String :=
  let r := s.engine.wake byTimer now
  ({ s with engine := r.engine }, replyLines r false)

/-- Plays a session to the given beats: all that it prints and how it ends, if it does.  No turn is
taken before the time that the session asks for. -/
def playBy : List Beat → (now : Nat) → Turn → Option (List String × Exit)
  | _, _, .over lines exit => some (lines, exit)
  | [], _, .more .. => none
  | .work d :: beats, now, .more lines resume s =>
    playBy beats (now + d) (.more lines resume { s with engine := s.engine.work (now + d) })
  | .wake byTimer d :: beats, now, .more lines resume s =>
    let (s, told) := s.wake byTimer (now + d)
    playBy beats (now + d) (.more (lines ++ told) resume s)
  | .turn d :: beats, now, .more lines resume s =>
    let now := max (now + d) resume
    (playBy beats now (s.next now)).map fun result => (lines ++ result.1, result.2)

/-- Playing at a fixed pace is playing to even beats. -/
theorem play_eq_playBy (pace turns now : Nat) (t : Turn) (printed : Array String) :
    play pace turns now t printed = (playBy (List.replicate turns (.turn pace)) now t).map
      fun (result : List String × Exit) => (printed ++ result.1, result.2) := by
  induction turns generalizing now t printed with
  | zero => cases t <;> rfl
  | succ turns ih =>
    rcases t with ⟨lines, resume, s⟩ | ⟨lines, exit⟩
    · rw [List.replicate_succ, play, ih, playBy, Option.map_map]
      congr 1
      funext result
      exact Prod.ext (Array.ext' (by simp)) rfl
    · rfl

/-! ## What a session comes to -/

/-- To these beats the session comes to the given end, or there were fewer turns than so many and
it has not ended. -/
def ComesTo (beats : List Beat) (now : Nat) (t : Turn) (bound : Nat)
    (result : List String × Exit) : Prop :=
  playBy beats now t = some result ∨ playBy beats now t = none ∧ turns beats < bound

variable {beats : List Beat} {now bound resume d : Nat} {lines rest : List String} {exit : Exit}
  {s : Session} {t : Turn} {result : List String × Exit}

theorem comesTo_over : ComesTo beats now (.over lines exit) bound (lines, exit) := by
  cases beats <;> exact .inl rfl

/-- Without any turn nothing ends. -/
theorem comesTo_nil : ComesTo [] now (.more lines resume s) (bound + 1) result :=
  .inr ⟨rfl, Nat.succ_pos bound⟩

theorem ComesTo.work
    (h : ComesTo beats (now + d) (.more lines resume { s with engine := s.engine.work (now + d) })
      bound result) :
    ComesTo (.work d :: beats) now (.more lines resume s) bound result := by
  rw [ComesTo, playBy, turns_of_not_isTurn rfl]
  exact h

/-- A host that wakes up prints its lines after those that are due. -/
theorem ComesTo.wake {byTimer : Bool}
    (h : ComesTo beats (now + d) (.more (lines ++ (s.wake byTimer (now + d)).2) resume
      (s.wake byTimer (now + d)).1) bound result) :
    ComesTo (.wake byTimer d :: beats) now (.more lines resume s) bound result := by
  rw [ComesTo, playBy, turns_of_not_isTurn rfl]
  exact h

/-- Without a computation nothing happens between two turns. -/
theorem ComesTo.between {b : Beat} (hcomputing : s.engine.isComputing = false)
    (hturn : b.isTurn = false)
    (h : ComesTo beats (now + b.nanoseconds) (.more lines resume s) bound result) :
    ComesTo (b :: beats) now (.more lines resume s) bound result := by
  cases b with
  | turn d => cases hturn
  | work d =>
    apply ComesTo.work
    rw [Engine.work_eq_self hcomputing]
    exact h
  | wake byTimer d =>
    apply ComesTo.wake
    simp only [Session.wake, Engine.wake_eq_report hcomputing]
    -- nothing is told, so nothing is printed
    rw [show replyLines (s.engine.report []) false = [] from rfl, List.append_nil]
    exact h

/-- A turn prints its lines before those of the turns that follow. -/
theorem ComesTo.turn
    (h : ComesTo beats (max (now + d) resume) (s.next (max (now + d) resume)) bound (rest, exit)) :
    ComesTo (.turn d :: beats) now (.more lines resume s) (bound + 1) (lines ++ rest, exit) := by
  rw [ComesTo, playBy, turns_turn]
  rcases h with h | ⟨h, hturns⟩
  · left
    rw [h]
    rfl
  · right
    rw [h]
    exact ⟨rfl, by omega⟩

theorem ComesTo.mono {bound' : Nat} (h : ComesTo beats now t bound result) (hle : bound ≤ bound') :
    ComesTo beats now t bound' result := by
  rcases h with h | ⟨h, hturns⟩
  · exact .inl h
  · exact .inr ⟨h, by omega⟩

end Session

namespace CommandLine

open Session

/-- What the program prints and how it ends, if it is given turns enough. -/
theorem execute_of_comesTo {args : List String} {o : Options} {inputs : Inputs}
    {pace turns bound : Nat} {lines : List String} {exit : Exit}
    (hparse : Options.parse args = .ok o)
    (h : ComesTo (List.replicate turns (.turn pace)) 0 (first o inputs 0) bound (lines, exit))
    (hbound : bound ≤ turns) : execute args inputs pace turns = some (lines.toArray, exit) := by
  have hplayed : playBy (List.replicate turns (.turn pace)) 0 (first o inputs 0) =
      some (lines, exit) := by
    rcases h with h | ⟨-, hturns⟩
    · exact h
    · have hcount : Session.turns (List.replicate turns (.turn pace)) = turns := by
        rw [Session.turns, List.countP_replicate]
        rfl
      omega
  rw [execute, hparse]
  dsimp only
  rw [play_eq_playBy, hplayed]
  simp

end CommandLine

end SingleTape
