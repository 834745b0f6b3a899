/-
  The host loop drives a session at sixty frames a second. In each frame it reads the user's
  batch, copies the held keys to the guest, runs the session for a frame and releases the keys;
  then it draws the screen and sets the buzzer to the session's tone. Once a second it shows how
  much was done. The loop ends when the user quits or the session is off.
-/
import Chip8.Host.Clock
import Chip8.Host.Keyboard
import Chip8.Session
namespace Chip8.Host

/-- Something that the loop does to the world. -/
inductive Event (τ : Type) where
  /-- Shows the frames and the instructions since the last report. -/
  | report (frames instructions : Int)
  | draw (screen : Screen)
  | buzzer (on : Bool)
  | sleep (delay : τ)

/-- The name of this program. -/
def programName : String := "VIPChip8 Interpreter"

/-- The window title that shows a report. -/
def reportTitle (frames instructions : Int) : String :=
  programName ++ " - " ++ toString frames ++ " FPS, " ++ toString instructions ++ " OPS"

/-- A session, its keyboard, and the figures for the next report. -/
structure Emulator (τ : Type) where
  session : Session
  keyboard : Keyboard
  /-- Frames drawn since the last report. -/
  frames : Nat := 0
  /-- Instructions executed since the last report. -/
  instructions : Nat := 0
  /-- When the next report is due. -/
  nextReport : τ

/-- What a frame of the loop leaves behind. The result says whether to go on. -/
structure Turn (τ : Type) where
  result : Except Failure Bool
  emulator : Emulator τ
  events : List (Event τ)
  log : List Record

namespace Emulator

variable {τ : Type} [Time τ]

/-- A new emulator. -/
def new (s : Session) (k : Keyboard) : Emulator τ :=
  { session := s, keyboard := k, nextReport := Time.ofSeconds 0 }

/-- What a new emulator does at once. -/
def opening : List (Event τ) := [.report 0 0]

/-- Reports if it is due, and then begins to count anew until the next whole second. -/
def reportAt (e : Emulator τ) (now : τ) : Except Failure (Emulator τ × List (Event τ)) :=
  if Time.reached e.nextReport now then do
    let seconds ← Time.seconds now
    return ({ e with
        frames := 0
        instructions := 0
        nextReport := Time.ofSeconds seconds + Time.ofSeconds 1 },
      [.report e.frames e.instructions])
  else .ok (e, [])

omit [Time τ] in
/-- Runs one frame with a batch of the user. -/
def runFrame (e : Emulator τ) (b : Batch) : Turn τ :=
  let keyboard := e.keyboard.apply b
  if b.quit then ⟨.ok false, { e with keyboard := keyboard }, [], []⟩
  else
    let session := if b.pause then e.session.pause else e.session
    let log := if b.pause then [.toggled session.status] else []
    match session.setKeys keyboard.held.toList with
    | (.error failure, session) =>
      ⟨.error failure, { e with session := session, keyboard := keyboard }, [], log⟩
    | (.ok (), session) =>
      let reply := session.runFrame
      match reply.result with
      | .error failure =>
        ⟨.error failure, { e with session := reply.session, keyboard := keyboard }, [],
          log ++ reply.log⟩
      | .ok executed =>
        let session := reply.session.clearKeys
        ⟨.ok (session.status != .off),
          { e with
            session := session
            keyboard := keyboard
            frames := e.frames + 1
            instructions := e.instructions + executed },
          [.draw session.machine.screen, .buzzer session.tone], log ++ reply.log⟩

end Emulator

/-- When the next frame is due. A loop that has fallen behind does not catch up. -/
def nextDeadline {τ : Type} [Time τ] (deadline now : τ) : τ :=
  Time.later (deadline + Time.frame) now

/-! ## The loop -/

/-- The loop between two passes. -/
structure Loop (κ τ : Type) where
  emulator : Emulator τ
  /-- The batches of the frames to come; after the last one the user does nothing. -/
  feed : List Batch
  clock : κ
  /-- When the current frame is due. -/
  deadline : τ
  events : Array (Event τ) := #[]
  log : Array Record := #[]

namespace Loop

variable {κ τ : Type} [Time τ]

/-- The rest of a pass that began at some time: a sleep until the next frame is due. -/
def wait (clock : Clock κ τ) (now : τ) (l : Loop κ τ) : Except Failure Bool × Loop κ τ :=
  match clock.read l.clock with
  | .error failure => (.error failure, l)
  | .ok (later, watch) =>
    let deadline := nextDeadline l.deadline now
    let l := { l with deadline := deadline, clock := watch }
    let delay := deadline - later
    if Time.before (Time.ofSeconds 0) delay then
      match clock.sleep delay watch with
      | .error failure => (.error failure, l)
      | .ok watch => (.ok true, { l with clock := watch, events := l.events.push (.sleep delay) })
    else (.ok true, l)

/-- One pass: a report if it is due, a frame, and a sleep until the next frame is due. The result
says whether to go on. -/
def pass (clock : Clock κ τ) (l : Loop κ τ) : Except Failure Bool × Loop κ τ :=
  match clock.read l.clock with
  | .error failure => (.error failure, l)
  | .ok (now, watch) =>
    let l := { l with clock := watch }
    match l.emulator.reportAt now with
    | .error failure => (.error failure, l)
    | .ok (emulator, reports) =>
      let turn := emulator.runFrame (l.feed.headD {})
      let l := { l with
        emulator := turn.emulator
        feed := l.feed.tail
        events := l.events ++ reports ++ turn.events
        log := l.log ++ turn.log }
      match turn.result with
      | .error failure => (.error failure, l)
      | .ok false => (.ok false, l)
      | .ok true => l.wait clock now

/-- Runs passes until one ends the loop, which silences the buzzer. There is no result if the
passes run out first. -/
def run (clock : Clock κ τ) : Nat → Loop κ τ → Option (Except Failure Unit × Loop κ τ)
  | 0, _ => none
  | passes + 1, l =>
    match l.pass clock with
    | (.error failure, l) => some (.error failure, l)
    | (.ok true, l) => l.run clock passes
    | (.ok false, l) => some (.ok (), { l with events := l.events.push (.buzzer false) })

/-- The loop before its first pass: the first frame is due at once. -/
def start (clock : Clock κ τ) (e : Emulator τ) (feed : List Batch) (watch : κ) :
    Except Failure (Loop κ τ) := do
  let (now, watch) ← clock.read watch
  return { emulator := e, feed := feed, clock := watch, deadline := now }

end Loop

end Chip8.Host
