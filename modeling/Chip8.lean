import Chip8.Main
import Chip8.Proofs.Drawing
import Chip8.Proofs.Failure
import Chip8.Proofs.Course
import Chip8.Proofs.Atomicity
import Chip8.Proofs.WellFormed
import Chip8.Proofs.History
import Chip8.Proofs.Faults
import Chip8.Proofs.Computer
import Chip8.Proofs.CallReturn
import Chip8.Proofs.Features
import Chip8.Proofs.Lockstep
import Chip8.Proofs.Isolation
import Chip8.Proofs.Independence
import Chip8.Proofs.Cadence
import Chip8.Proofs.Playing
import Chip8.Proofs.Discipline
import Chip8.Proofs.IndexBits
import Chip8.Proofs.WriteSet
import Chip8.Proofs.NextCounter
import Chip8.Proofs.Timers
import Chip8.Proofs.Blocks
import Chip8.Proofs.Frames
import Chip8.Proofs.HostFrames
import Chip8.Proofs.ExactTime
import Chip8.Proofs.Reports
import Chip8.Proofs.Tracing
import Chip8.Proofs.Arithmetic
import Chip8.Proofs.Flips
import Chip8.Proofs.Sprites
import Chip8.Proofs.Bank
import Chip8.Proofs.Buzzer
import Chip8.Proofs.BankCalls
import Chip8.Proofs.Jobs
import Chip8.Proofs.Stamps
import Chip8.Proofs.Transfers
import Chip8.Proofs.FrameCalls
import Chip8.Proofs.Streaming
import Chip8.Proofs.KeyWait
import Chip8.Proofs.Loading
import Chip8.Proofs.Keystrokes
import Chip8.Proofs.Pixels
import Chip8.Proofs.Geometry
import Chip8.Proofs.Numerals
import Chip8.Proofs.Keymaps
import Chip8.Proofs.Colours
import Chip8.Proofs.Painting
import Chip8.Proofs.Pacing
import Chip8.Proofs.Snapshots
import Chip8.Proofs.Rows
