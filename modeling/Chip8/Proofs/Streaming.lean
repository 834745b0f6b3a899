/-
  Streams of registers. In a dialect that moves I, stores in a row put their blocks one behind the
  other, and loads in a row take them up again if I is set back. I keeps sixteen bits and an address
  twelve of these, so a stream may go past either end, as long as it does not overtake itself. In
  between the registers may hold anything.
-/
import Chip8.Proofs.History
import Chip8.Proofs.Transfers
namespace Chip8

/-- A block of registers that is stored and loaded later, with what the registers hold at the one
time and at the other. -/
structure RoundTrip where
  /-- The last register of the block. -/
  last : Register
  stored : Vector UInt8 registerCount
  overwritten : Vector UInt8 registerCount

namespace RoundTrip

/-- The store, to be executed. -/
def store (t : RoundTrip) : Job where
  word := wordOfByte 0xF t.last 0x55
  prepare := fun m => { m with registers := t.stored }

/-- The load, to be executed. -/
def load (t : RoundTrip) : Job where
  word := wordOfByte 0xF t.last 0x65
  prepare := fun m => { m with registers := t.overwritten }

/-- The bytes that are stored. -/
def bytes (t : RoundTrip) : List UInt8 := lowRegisters t.stored t.last

/-- The number of bytes of all blocks. -/
def span (trips : List RoundTrip) : Nat := (trips.map fun t => t.last.val + 1).sum

theorem length_bytes (t : RoundTrip) : t.bytes.length = t.last.val + 1 :=
  length_lowRegisters t.stored t.last

theorem length_flatMap_bytes (trips : List RoundTrip) :
    (trips.flatMap bytes).length = span trips := by
  rw [List.length_flatMap, span]
  congr 1
  exact List.map_congr_left fun t _ => t.length_bytes

theorem span_nil : span [] = 0 := rfl

theorem span_cons (t : RoundTrip) (trips : List RoundTrip) :
    span (t :: trips) = t.last.val + 1 + span trips := by
  rw [span, List.map_cons, List.sum_cons, span]

/-- The bytes of a block lie in the stream after those of the blocks before. -/
theorem getElem?_flatMap_bytes {trips : List RoundTrip} {i : Nat} (hi : i < trips.length)
    {k : Register} (hk : k ≤ trips[i].last) :
    (trips.flatMap bytes)[span (trips.take i) + k.val]? = some (trips[i].stored.get k) := by
  induction trips generalizing i with
  | nil => cases hi
  | cons t trips ih =>
    cases i with
    | zero =>
      have hbyte := getElem?_lowRegisters t.stored hk
      obtain ⟨hlt, -⟩ := List.getElem?_eq_some_iff.mp hbyte
      rw [List.take_zero, span_nil, Nat.zero_add, List.flatMap_cons]
      exact (List.getElem?_append_left hlt).trans hbyte
    | succ i =>
      have hrest := ih (Nat.lt_of_succ_lt_succ hi) hk
      rw [List.take_succ_cons, span_cons, List.flatMap_cons, Nat.add_assoc, ← length_bytes,
        List.getElem?_append_right (Nat.le_add_right _ _), Nat.add_sub_cancel_left]
      exact hrest

section Moving

variable {cpu : Processor} (hmoves : cpu.platform.dialect.transferMovesIndex = true)

include hmoves

/-- A store puts its bytes at I, and leaves I past them. -/
theorem store_effect (t : RoundTrip) (m : Machine) :
    ∃ n : Machine,
      (Instruction.storeRegisters t.last).effect cpu.platform 0 (t.store.prepare m) = ⟨n, none⟩ ∧
      n.memory = (m.storeBytes m.index t.bytes).memory ∧
      n.index = (m.index + (t.last.val + 1)) % 0x10000 := by
  have heffect := Instruction.effect_storeRegisters cpu.platform 0 (t.store.prepare m) t.last
  have hsame : (4096 : Int) ∣ m.index - m.index := by omega
  have hmemory : ((t.store.prepare m).storeBytes m.index t.bytes).memory =
      (m.storeBytes m.index t.bytes).memory :=
    @Machine.memory_storeBytes_congr m m.index (t.store.prepare m) rfl m.index hsame t.bytes
  exact ⟨_, heffect, hmemory, if_pos hmoves⟩

/-- A load takes its bytes at I, and leaves I past them. -/
theorem load_effect (t : RoundTrip) (m : Machine) :
    ∃ n : Machine,
      (Instruction.loadRegisters t.last).effect cpu.platform 0 (t.load.prepare m) = ⟨n, none⟩ ∧
      n.memory = m.memory ∧ n.index = (m.index + (t.last.val + 1)) % 0x10000 ∧
      ∀ k ≤ t.last, n.reg k = m.byteAt (m.index + k.val) := by
  have heffect := Instruction.effect_loadRegisters cpu.platform 0 (t.load.prepare m) t.last
  have hloads := Instruction.loads_effect cpu.platform 0 (t.load.prepare m) t.last
  rw [heffect] at hloads
  exact ⟨_, heffect, rfl, if_pos hmoves, hloads.registers⟩

/-- Stores are executed, put their bytes into the memory as a stream, and leave I past its end. -/
theorem stores_complete (trips : List RoundTrip) {m : Machine}
    (hindex : 0 ≤ m.index ∧ m.index ≤ 0xFFFF) :
    ∃ n : Machine, cpu.Completes (trips.map store) m n ∧
      n.memory = (m.storeBytes m.index (trips.flatMap bytes)).memory ∧
      n.index = (m.index + span trips) % 0x10000 := by
  induction trips generalizing m with
  | nil =>
    refine ⟨m, .nil m, rfl, ?_⟩
    rw [span_nil]
    omega
  | cons t trips ih =>
    obtain ⟨n, heffect, hmemory, hpast⟩ := store_effect hmoves t m
    obtain ⟨after, hrest, hmemories, hpasts⟩ := @ih n (by omega)
    have hwhere : (4096 : Int) ∣ n.index - (m.index + t.bytes.length) := by
      rw [hpast, length_bytes]
      omega
    refine ⟨after, .instruction rfl rfl heffect hrest, ?_, ?_⟩
    · rw [hmemories, List.flatMap_cons, Machine.storeBytes_append]
      exact Machine.memory_storeBytes_congr hmemory hwhere _
    · rw [hpasts, hpast, span_cons]
      omega

/-- Loads are executed, leave the memory as it was, and leave I past the end of their bytes. -/
theorem loads_complete (trips : List RoundTrip) {m : Machine}
    (hindex : 0 ≤ m.index ∧ m.index ≤ 0xFFFF) :
    ∃ n : Machine, cpu.Completes (trips.map load) m n ∧ n.memory = m.memory ∧
      n.index = (m.index + span trips) % 0x10000 := by
  induction trips generalizing m with
  | nil =>
    refine ⟨m, .nil m, rfl, ?_⟩
    rw [span_nil]
    omega
  | cons t trips ih =>
    obtain ⟨n, heffect, hmemory, hpast, -⟩ := load_effect hmoves t m
    obtain ⟨after, hrest, hmemories, hpasts⟩ := @ih n (by omega)
    refine ⟨after, .instruction rfl rfl heffect hrest, hmemories.trans hmemory, ?_⟩
    rw [hpasts, hpast, span_cons]
    omega

/-- The last of some loads finds the bytes that its store put into the stream. -/
theorem load_finds {trips : List RoundTrip} (hfits : span trips ≤ memorySize) {m₀ m : Machine}
    (hindex : 0 ≤ m.index ∧ m.index ≤ 0xFFFF)
    (hmemory : m.memory = (m₀.storeBytes m.index (trips.flatMap bytes)).memory) {i : Nat}
    (hi : i < trips.length) :
    ∃ n : Machine, cpu.Completes ((trips.take (i + 1)).map load) m n ∧
      ∀ k ≤ trips[i].last, n.reg k = trips[i].stored.get k := by
  obtain ⟨before, hbefore, hsame, hpast⟩ := loads_complete hmoves (trips.take i) hindex
  obtain ⟨n, heffect, -, -, hregs⟩ := load_effect hmoves trips[i] before
  have hjobs : (trips.take (i + 1)).map load = (trips.take i).map load ++ [trips[i].load] := by
    rw [List.take_succ_eq_append_getElem hi, List.map_append, List.map_singleton]
  have hlast : cpu.Completes [trips[i].load] before n := .instruction rfl rfl heffect (.nil n)
  refine ⟨n, hjobs ▸ hbefore.append hlast, fun k hk => ?_⟩
  obtain ⟨hlt, hbyte⟩ := List.getElem?_eq_some_iff.mp (getElem?_flatMap_bytes hi hk)
  have hwhere : (4096 : Int) ∣
      before.index + k.val - (m.index + (span (trips.take i) + k.val : Nat)) := by omega
  have hlength : (trips.flatMap bytes).length ≤ memorySize := by
    rw [length_flatMap_bytes]
    exact hfits
  calc n.reg k = before.byteAt (before.index + k.val) := hregs k hk
    _ = (m₀.storeBytes m.index (trips.flatMap bytes)).byteAt
          (m.index + (span (trips.take i) + k.val : Nat)) :=
        Machine.byteAt_congr (hsame.trans hmemory) hwhere
    _ = (trips.flatMap bytes)[span (trips.take i) + k.val] :=
        Machine.byteAt_storeBytes hlength hlt rfl
    _ = trips[i].stored.get k := hbyte

end Moving

end RoundTrip

namespace Processor

/-- What loads come to after stores, with I set back to where it was before these. -/
def reload (cpu : Processor) (stores loads : List Job) (m : Machine) : Run Bool :=
  let stored := cpu.executeAll stores m
  stored.processor.executeAll loads { stored.machine with index := m.index }

theorem Completes.reload {cpu : Processor} {stores loads : List Job} {m n after : Machine}
    (hstores : cpu.Completes stores m n)
    (hloads : cpu.Completes loads { n with index := m.index } after) :
    (cpu.reload stores loads m).result = .ok true ∧
      (cpu.reload stores loads m).machine = after := by
  obtain ⟨-, hcpu, hmachine⟩ := hstores.executeAll
  obtain ⟨hresult, -, hafter⟩ := hloads.executeAll
  rw [Processor.reload, hcpu, hmachine]
  exact ⟨hresult, hafter⟩

end Processor

open RoundTrip in
/-- What is stored in a row is loaded in a row, in a dialect that moves I. The blocks may go past
the end of the memory and past the end of I any number of times, as long as they fit into the memory
together, and the registers may be changed before every store and every load. -/
theorem stream_read_back {cpu : Processor}
    (hmoves : cpu.platform.dialect.transferMovesIndex = true) {m : Machine}
    (hindex : 0 ≤ m.index ∧ m.index ≤ 0xFFFF) {trips : List RoundTrip}
    (hfits : span trips ≤ memorySize) :
    (cpu.executeAll (trips.map store) m).result = .ok true ∧
      (cpu.executeAll (trips.map store) m).machine.index = (m.index + span trips) % 0x10000 ∧
      (cpu.reload (trips.map store) (trips.map load) m).result = .ok true ∧
      (cpu.reload (trips.map store) (trips.map load) m).machine.index =
        (m.index + span trips) % 0x10000 ∧
      ∀ (i : Nat) (hi : i < trips.length), ∀ k ≤ trips[i].last,
        (cpu.reload (trips.map store) ((trips.take (i + 1)).map load) m).machine.reg k =
          trips[i].stored.get k := by
  obtain ⟨stored, hstores, hmemory, hpast⟩ := stores_complete hmoves trips hindex
  obtain ⟨loaded, hloads, -, hpasts⟩ :=
    loads_complete hmoves trips (m := { stored with index := m.index }) hindex
  obtain ⟨hresult, -, hmachine⟩ := hstores.executeAll
  obtain ⟨hresults, hmachines⟩ := hstores.reload hloads
  refine ⟨hresult, by rw [hmachine, hpast], hresults, by rw [hmachines, hpasts], ?_⟩
  intro i hi k hk
  obtain ⟨found, hfinds, hregs⟩ :=
    load_finds hmoves hfits (m := { stored with index := m.index }) hindex hmemory hi
  rw [(hstores.reload hfinds).2]
  exact hregs k hk

/-- A processor of the platform "chip48", with zeros for random numbers. -/
def movingProcessor : Processor where
  platform := Platform.preset "chip48" 30 { transferMovesIndex := true, jumpAddsFirst := true }
  source := ⟨fun _ => some 0, 0⟩

/-- A machine whose I is about to pass both ends. -/
def brimMachine : Machine := { Machine.fresh movingProcessor.platform with index := 0xFFFA }

/-- Two blocks, up to the one register and up to the other. -/
def brimTrips (x y : Register) : List RoundTrip :=
  [⟨x, Vector.ofFn fun k => UInt8.ofNat (0x10 + k.val), Vector.replicate registerCount 0⟩,
   ⟨y, Vector.ofFn fun k => UInt8.ofNat (0x20 + k.val), Vector.replicate registerCount 0xFF⟩]

open RoundTrip in
theorem stream_read_back_brim :
    movingProcessor.platform.dialect.transferMovesIndex = true ∧
      (0 ≤ brimMachine.index ∧ brimMachine.index ≤ 0xFFFF) ∧ span (brimTrips 0xF 3) = 20 ∧
      (movingProcessor.executeAll ((brimTrips 0xF 3).map store)
        brimMachine).machine.index = 0x000E ∧
      (movingProcessor.reload ((brimTrips 0xF 3).map store) (((brimTrips 0xF 3).take 1).map load)
        brimMachine).machine.reg 0xF = 0x1F ∧
      (movingProcessor.reload ((brimTrips 0xF 3).map store) (((brimTrips 0xF 3).take 2).map load)
        brimMachine).machine.reg 3 = 0x23 := by
  have hindex : 0 ≤ brimMachine.index ∧ brimMachine.index ≤ 0xFFFF := by decide
  have hspan : span (brimTrips 0xF 3) = 20 := by decide
  have hfits : span (brimTrips 0xF 3) ≤ memorySize := by rw [hspan]; decide
  obtain ⟨-, hpast, -, -, hregs⟩ :=
    @stream_read_back movingProcessor rfl brimMachine hindex (brimTrips 0xF 3) hfits
  rw [hspan] at hpast
  exact ⟨rfl, hindex, hspan, hpast, hregs 0 (by decide) 0xF (by decide),
    hregs 1 (by decide) 3 (by decide)⟩

end Chip8
