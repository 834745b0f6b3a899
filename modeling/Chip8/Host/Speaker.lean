/-
  The desktop's speaker plays one period of a square wave over and over while the buzzer is on.
  Each operation gives the calls that it makes of the sound mixer.
-/
namespace Chip8.Host

/-- A call of the sound mixer. -/
inductive MixerCall where
  /-- Asks for a sample rate, a sample width in bits, a number of channels, and the changes of
  these that the mixer may make. -/
  | configure (frequency size channels allowedChanges : Int)
  | open
  /-- Prepares a sound from its samples. -/
  | load (samples : List UInt8)
  /-- Sets the volume, in tenths. -/
  | setVolume (tenths : Nat)
  /-- Plays the sound; -1 loops means without end. -/
  | play (loops : Int)
  | stop
  | close
  deriving DecidableEq

/-- Samples in a second. -/
def sampleRate : Nat := 44100

/-- Periods of the tone in a second. -/
def toneFrequency : Nat := 440

/-- The samples of one period of the tone, to the nearest whole sample. -/
def tonePeriod : Nat := (2 * sampleRate + toneFrequency) / (2 * toneFrequency)

/-- One period of the tone: high for the first half and low for the second. -/
def squareWave : List UInt8 :=
  (List.range tonePeriod).map fun k => if k < tonePeriod / 2 then 0xFF else 0x00

/-- The speaker. -/
structure Speaker where
  /-- The buzzer is on. -/
  enabled : Bool := false
  deriving DecidableEq

namespace Speaker

/-- The calls that make the speaker ready. -/
def openCalls : List MixerCall :=
  [.configure sampleRate 8 1 0, .open, .load squareWave, .setVolume 1]

/-- Switches the buzzer. A tone that sounds already is not begun again. -/
def enable (s : Speaker) (on : Bool) : Speaker × List MixerCall :=
  ({ s with enabled := on },
    if on && !s.enabled then [.play (-1)] else if !on && s.enabled then [.stop] else [])

/-- Switches the buzzer again and again. -/
def enableAll (s : Speaker) : List Bool → Speaker × List MixerCall
  | [] => (s, [])
  | on :: rest =>
    let (s, calls) := s.enable on
    let (s, more) := s.enableAll rest
    (s, calls ++ more)

/-- The calls that shut the speaker down. -/
def closeCalls : List MixerCall := [.stop, .close]

end Speaker

example : squareWave.length = 100 := rfl

end Chip8.Host
