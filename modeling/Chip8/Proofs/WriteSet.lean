/-
  The write set of a word: the places of the machine that executing the word may change. The rules
  of `Writes` give it for every word and every machine. Each update that instructions are made of
  is confined to the place that it is about, and what is made of such updates is confined to all
  of their places; so executing a word changes nothing but the counter and its write set
  (`execute_write_set`).
-/
import Chip8.Proofs.History
namespace Chip8

/-- The places of a machine, apart from the counter. -/
inductive Place where
  | memory (a : Address)
  | register (x : Register)
  | index
  | stack
  | delay
  | sound
  | pixels
  | awaitingBlank
  /-- The dimensions of the screen, and its way with the edges. -/
  | geometry
  | keypad
  | programEnd

namespace Machine

/-- The machines hold the same at a place. -/
def SameAt (m n : Machine) : Place → Prop
  | .memory a => n.memory[a] = m.memory[a]
  | .register x => n.reg x = m.reg x
  | .index => n.index = m.index
  | .stack => n.stack = m.stack
  | .delay => n.delay = m.delay
  | .sound => n.sound = m.sound
  | .pixels => n.screen.bank = m.screen.bank
  | .awaitingBlank => n.awaitingBlank = m.awaitingBlank
  | .geometry => n.screen.frame = m.screen.frame
  | .keypad => n.keypad = m.keypad
  | .programEnd => n.programEnd = m.programEnd

theorem SameAt.refl (m : Machine) (place : Place) : m.SameAt m place := by
  cases place <;> exact rfl

/-- There are no other places: machines that hold the same at each, and have the same counter, are
the same. -/
theorem eq_of_sameAt {m n : Machine} (hcounter : n.counter = m.counter)
    (h : ∀ place, m.SameAt n place) : n = m := by
  have hmemory : n.memory = m.memory := Vector.ext fun i hi => h (.memory ⟨i, hi⟩)
  have hregisters : n.registers = m.registers := Vector.ext fun i hi => h (.register ⟨i, hi⟩)
  have hscreen : n.screen = m.screen := by
    have hwraps : n.screen.wraps = m.screen.wraps := congrArg Screen.Frame.wraps (h .geometry)
    calc n.screen = ⟨n.screen.width, n.screen.height, n.screen.wraps, n.screen.bank⟩ := rfl
      _ = m.screen := by
        rw [Screen.width_of_frame (h .geometry), Screen.height_of_frame (h .geometry), hwraps,
          h .pixels]
  have hindex : n.index = m.index := h .index
  have hstack : n.stack = m.stack := h .stack
  have hdelay : n.delay = m.delay := h .delay
  have hsound : n.sound = m.sound := h .sound
  have hblank : n.awaitingBlank = m.awaitingBlank := h .awaitingBlank
  have hkeypad : n.keypad = m.keypad := h .keypad
  have hend : n.programEnd = m.programEnd := h .programEnd
  cases m
  cases n
  simp_all

/-! ## Confined updates -/

/-- Apart from the counter, the machines differ at most at some places. -/
def Confined (m n : Machine) (places : Place → Prop) : Prop :=
  ∀ place, places place ∨ m.SameAt n place

section Confined

variable {m n : Machine} {places : Place → Prop}

theorem Confined.refl (m : Machine) (places : Place → Prop) : m.Confined m places :=
  fun place => Or.inr (SameAt.refl m place)

variable (h : m.Confined n places)

include h

theorem Confined.counter (counter : Int) :
    m.Confined { n with counter := counter } places := by
  intro place
  cases place <;> exact h _

theorem Confined.advance : m.Confined n.advance places := h.counter _

theorem Confined.skipIf (condition : Bool) : m.Confined (n.skipIf condition) places := by
  rw [skipIf_eq]
  exact h.counter _

theorem Confined.index (hplace : places .index) (index : Int) :
    m.Confined { n with index := index } places := by
  intro place
  cases place with
  | index => exact Or.inl hplace
  | _ => exact h _

theorem Confined.stack (hplace : places .stack) (stack : CallStack) :
    m.Confined { n with stack := stack } places := by
  intro place
  cases place with
  | stack => exact Or.inl hplace
  | _ => exact h _

theorem Confined.delay (hplace : places .delay) (delay : Int) :
    m.Confined { n with delay := delay } places := by
  intro place
  cases place with
  | delay => exact Or.inl hplace
  | _ => exact h _

theorem Confined.sound (hplace : places .sound) (sound : Int) :
    m.Confined { n with sound := sound } places := by
  intro place
  cases place with
  | sound => exact Or.inl hplace
  | _ => exact h _

theorem Confined.awaitingBlank (hplace : places .awaitingBlank) (blank : Bool) :
    m.Confined { n with awaitingBlank := blank } places := by
  intro place
  cases place with
  | awaitingBlank => exact Or.inl hplace
  | _ => exact h _

/-- A screen of the same frame differs in its pixels only. -/
theorem Confined.screen (hplace : places .pixels) {screen : Screen}
    (hframe : screen.frame = n.screen.frame) : m.Confined { n with screen := screen } places := by
  intro place
  cases place with
  | pixels => exact Or.inl hplace
  | geometry => exact (h .geometry).imp_right fun hs => hframe.trans hs
  | _ => exact h _

theorem Confined.registers {registers : Vector UInt8 registerCount}
    (hplace : ∀ x, places (.register x) ∨
      ({ n with registers := registers } : Machine).reg x = n.reg x) :
    m.Confined { n with registers := registers } places := by
  intro place
  cases place with
  | register x =>
    rcases hplace x with hp | hx
    · exact Or.inl hp
    · exact (h (.register x)).imp_right fun hs => hx.trans hs
  | _ => exact h _

theorem Confined.setReg {x : Register} (hplace : places (.register x)) (b : UInt8) :
    m.Confined (n.setReg x b) places := by
  refine h.registers fun y => ?_
  by_cases hxy : x = y
  · subst hxy
    exact Or.inl hplace
  · exact Or.inr (Vector.getElem_set_ne x.isLt y.isLt fun hval => hxy (Fin.ext hval))

theorem Confined.setByteAt {i : Int} (hplace : places (.memory (Address.ofInt i))) (b : UInt8) :
    m.Confined (n.setByteAt i b) places := by
  intro place
  cases place with
  | memory a =>
    by_cases ha : Address.ofInt i = a
    · subst ha
      exact Or.inl hplace
    · refine (h (.memory a)).imp_right fun hs => Eq.trans ?_ hs
      exact Vector.getElem_set_ne (Address.ofInt i).isLt a.isLt fun hval => ha (Fin.ext hval)
  | _ => exact h _

theorem Confined.storeBlock (count : Nat)
    (hplace : ∀ k < count, places (.memory (Address.ofInt (n.index + k)))) :
    m.Confined (n.storeBlock count) places := by
  have hks : ∀ k ∈ List.range count, k < count := fun k hk => List.mem_range.mp hk
  unfold Machine.storeBlock
  generalize List.range count = ks at hks
  suffices hfold : ∀ t : Machine, m.Confined t places →
      m.Confined (ks.foldl (fun t (k : Nat) =>
        t.setByteAt (n.index + k) (n.registers.toList.getD k 0)) t) places from hfold n h
  induction ks with
  | nil => intro t ht; exact ht
  | cons k ks ih =>
    intro t ht
    have hk := hplace k (hks k List.mem_cons_self)
    exact ih (fun k hk => hks k (List.mem_cons_of_mem _ hk)) _ (ht.setByteAt hk _)

theorem Confined.loadBlock (count : Nat)
    (hplace : ∀ x : Register, x.val < count → places (.register x)) :
    m.Confined (n.loadBlock count) places := by
  refine h.registers fun x => ?_
  by_cases hx : x.val < count
  · exact Or.inl (hplace x hx)
  · exact Or.inr ((n.reg_loadBlock count x).trans (if_neg hx))

theorem Confined.moveIndex {d : Dialect} (hplace : d.transferMovesIndex = true → places .index)
    (count : Nat) : m.Confined (n.moveIndex d count) places := by
  unfold Machine.moveIndex
  split
  · rename_i hd
    exact h.index (hplace hd) _
  · exact h

theorem Confined.logic {d : Dialect} {x : Register} (hplace : places (.register x))
    (hflag : d.logicClearsFlag = true → places (.register flagRegister)) (b : UInt8) :
    m.Confined (Machine.logic d n x b) places := by
  unfold Machine.logic
  dsimp only
  split
  · rename_i hd
    exact ((h.setReg hplace b).setReg (hflag hd) 0).advance
  · exact (h.setReg hplace b).advance

theorem Confined.arithmetic {x : Register} (hplace : places (.register x))
    (hflag : places (.register flagRegister)) (b : UInt8) (flag : Bool) :
    m.Confined (n.arithmetic x b flag) places :=
  ((h.setReg hplace b).setReg hflag _).advance

theorem Confined.drawSprite {d : Dialect} (hflag : places (.register flagRegister))
    (hpixels : places .pixels) (hblank : d.drawEndsFrame = true → places .awaitingBlank)
    (x y : Register) (rows : Nat) : m.Confined (n.drawSprite d x y rows).machine places := by
  simp only [Machine.drawSprite]
  split
  · exact h
  · generalize hdrawing : n.screen.draw 0 _ = drawing
    have hframe : drawing.screen.frame = n.screen.frame := by
      rw [← hdrawing]
      exact Screen.draw_frame _ _ _
    have hdrawn := (h.setReg hflag drawing.collision).screen hpixels hframe
    split
    · exact hdrawn
    · cases hd : d.drawEndsFrame with
      | true => exact hdrawn.advance.awaitingBlank (hblank hd) _
      | false =>
        simp only [Bool.or_false]
        exact hdrawn.advance

end Confined

end Machine

/-! ## The write set -/

/-- The places that executing a word may change, apart from the counter. -/
inductive Writes (d : Dialect) (m : Machine) : Nat → Place → Prop where
  | clear : Writes d m 0x00E0 .pixels
  | ret : Writes d m 0x00EE .stack
  | call (target : Address) : Writes d m (wordOfAddress 0x2 target) .stack
  | setByte (x : Register) (k : UInt8) : Writes d m (wordOfByte 0x6 x k) (.register x)
  | addByte (x : Register) (k : UInt8) : Writes d m (wordOfByte 0x7 x k) (.register x)
  | copy (x y : Register) : Writes d m (wordOfNibbles 0x8 x y 0x0) (.register x)
  | logic (x y : Register) {n : Nat} (hn : n ∈ [0x1, 0x2, 0x3]) :
    Writes d m (wordOfNibbles 0x8 x y n) (.register x)
  | logicFlag (x y : Register) {n : Nat} (hn : n ∈ [0x1, 0x2, 0x3])
    (hd : d.logicClearsFlag = true) : Writes d m (wordOfNibbles 0x8 x y n) (.register flagRegister)
  | arithmetic (x y : Register) {n : Nat} (hn : n ∈ [0x4, 0x5, 0x6, 0x7, 0xE]) :
    Writes d m (wordOfNibbles 0x8 x y n) (.register x)
  | arithmeticFlag (x y : Register) {n : Nat} (hn : n ∈ [0x4, 0x5, 0x6, 0x7, 0xE]) :
    Writes d m (wordOfNibbles 0x8 x y n) (.register flagRegister)
  | setIndex (target : Address) : Writes d m (wordOfAddress 0xA target) .index
  | random (x : Register) (mask : UInt8) : Writes d m (wordOfByte 0xC x mask) (.register x)
  | draw (x y : Register) (rows : Fin 16) : Writes d m (wordOfNibbles 0xD x y rows) .pixels
  | drawFlag (x y : Register) (rows : Fin 16) :
    Writes d m (wordOfNibbles 0xD x y rows) (.register flagRegister)
  | drawBlank (x y : Register) (rows : Fin 16) (hd : d.drawEndsFrame = true) :
    Writes d m (wordOfNibbles 0xD x y rows) .awaitingBlank
  | readDelay (x : Register) : Writes d m (wordOfByte 0xF x 0x07) (.register x)
  /-- Waiting for a key changes a register only when one is held. -/
  | waitKey (x : Register) (hkey : true ∈ m.keypad) :
    Writes d m (wordOfByte 0xF x 0x0A) (.register x)
  | setDelay (x : Register) : Writes d m (wordOfByte 0xF x 0x15) .delay
  | setSound (x : Register) : Writes d m (wordOfByte 0xF x 0x18) .sound
  | addIndex (x : Register) : Writes d m (wordOfByte 0xF x 0x1E) .index
  | pointGlyph (x : Register) : Writes d m (wordOfByte 0xF x 0x29) .index
  | storeDigits (x : Register) {k : Nat} (hk : k < 3) :
    Writes d m (wordOfByte 0xF x 0x33) (.memory (Address.ofInt (m.index + k)))
  | storeRegisters (x : Register) {k : Nat} (hk : k ≤ x.val) :
    Writes d m (wordOfByte 0xF x 0x55) (.memory (Address.ofInt (m.index + k)))
  | storeIndex (x : Register) (hd : d.transferMovesIndex = true) :
    Writes d m (wordOfByte 0xF x 0x55) .index
  | loadRegisters (x : Register) {y : Register} (hy : y.val ≤ x.val) :
    Writes d m (wordOfByte 0xF x 0x65) (.register y)
  | loadIndex (x : Register) (hd : d.transferMovesIndex = true) :
    Writes d m (wordOfByte 0xF x 0x65) .index

namespace Instruction

open Machine

/-- An instruction is confined to the write set of its word, even if something stops it. -/
theorem effect_confined (p : Platform) (number : Int) (i : Instruction) (m : Machine) :
    m.Confined (i.effect p number m).machine (Writes p.dialect m i.word) := by
  have hrefl := Confined.refl m (Writes p.dialect m i.word)
  cases i with
  | clear =>
    simp only [effect]
    cases h : m.screen.clear with
    | ok screen => exact (hrefl.screen .clear (Screen.clear_frame h)).advance
    | error e => exact hrefl
  | ret =>
    simp only [effect]
    cases m.stack.pop with
    | ok r => exact (hrefl.stack .ret r.2).counter _
    | error e => exact hrefl
  | jump target | jumpOffset target => exact hrefl.counter _
  | call target =>
    simp only [effect]
    cases m.stack.push m.counter with
    | ok stack => exact (hrefl.stack (.call target) stack).counter _
    | error e => exact hrefl
  | skipIfByte | skipUnlessByte | skipIfSame | skipUnlessSame => exact hrefl.skipIf _
  | skipIfHeld x | skipUnlessHeld x =>
    simp only [effect, skipOnKey]
    cases m.keyHeld x with
    | ok now => exact hrefl.skipIf _
    | error e => exact hrefl
  | setByte x k => exact (hrefl.setReg (.setByte x k) _).advance
  | addByte x k => exact (hrefl.setReg (.addByte x k) _).advance
  | copy x y => exact (hrefl.setReg (.copy x y) _).advance
  | random x mask => exact (hrefl.setReg (.random x mask) _).advance
  | orWith x y | andWith x y | xorWith x y =>
    exact hrefl.logic (.logic x y (by decide)) (.logicFlag x y (by decide)) _
  | add x y | subtract x y | shiftRight x y | subtractFrom x y | shiftLeft x y =>
    exact hrefl.arithmetic (.arithmetic x y (by decide)) (.arithmeticFlag x y (by decide)) _ _
  | setIndex target => exact (hrefl.index (.setIndex target) _).advance
  | addIndex x => exact (hrefl.index (.addIndex x) _).advance
  | pointGlyph x => exact (hrefl.index (.pointGlyph x) _).advance
  | draw x y rows =>
    exact hrefl.drawSprite (.drawFlag x y rows) (.draw x y rows) (.drawBlank x y rows) x y rows
  | readDelay x =>
    simp only [effect]
    cases byte? m.delay with
    | some b => exact (hrefl.setReg (.readDelay x) b).advance
    | none => exact hrefl
  | waitKey x =>
    simp only [effect, takeKey]
    cases hkey : m.lowestKey? with
    | none => exact hrefl
    | some key =>
      have hheld : true ∈ m.keypad := isSome_lowestKey?_iff.mp (by rw [hkey]; rfl)
      dsimp only
      cases byte? key with
      | some b => exact (hrefl.setReg (.waitKey x hheld) b).advance
      | none => exact hrefl
  | setDelay x => exact (hrefl.delay (.setDelay x) _).advance
  | setSound x => exact (hrefl.sound (.setSound x) _).advance
  | storeDigits x =>
    have hplace : ∀ k < 3, Writes p.dialect m (storeDigits x).word
        (.memory (Address.ofInt (m.index + (k : Nat)))) := fun k hk => .storeDigits x hk
    have hfirst := hplace 0 (by decide)
    rw [Int.natCast_zero, Int.add_zero] at hfirst
    exact (((hrefl.setByteAt hfirst _).setByteAt (hplace 1 (by decide)) _).setByteAt
      (hplace 2 (by decide)) _).advance
  | storeRegisters x =>
    have hblock := hrefl.storeBlock (x.val + 1) fun k hk =>
      .storeRegisters x (Nat.le_of_lt_succ hk)
    exact (hblock.moveIndex (.storeIndex x) _).advance
  | loadRegisters x =>
    have hblock := hrefl.loadBlock (x.val + 1) fun y hy =>
      .loadRegisters x (Nat.le_of_lt_succ hy)
    exact (hblock.moveIndex (.loadIndex x) _).advance

/-- Only one kind of word asks for a random number. -/
theorem isRandom_iff {i : Instruction} :
    i.isRandom = true ↔ ∃ x mask, i.word = wordOfByte 0xC x mask := by
  constructor
  · intro h
    cases i with
    | random x mask => exact ⟨x, mask, rfl⟩
    | _ => cases h
  · rintro ⟨x, mask, h⟩
    have hi : i = random x mask := word_injective h
    rw [hi]
    rfl

end Instruction

/-! ## Executing a word -/

namespace Processor

variable {cpu : Processor} {m : Machine}

theorem numberFor_taken {i : Instruction} {number : Int} {source : Source}
    (h : cpu.numberFor i = .ok (number, source)) :
    source = { cpu.source with taken := cpu.source.taken + if i.isRandom then 1 else 0 } := by
  unfold numberFor at h
  cases hr : i.isRandom with
  | false =>
    rw [hr] at h
    cases h
    rfl
  | true =>
    rw [hr, if_pos rfl] at h
    unfold Source.next at h
    split at h
    · cases h
      rfl
    · cases h

/-- A word that is executed without being stopped is that of no instruction, and changes nothing,
or it is that of an instruction, which succeeds. -/
theorem execute_ok {w : Nat} (hw : w < 0x10000) {known : Bool}
    (h : (cpu.execute w m).result = .ok known) :
    ((∀ i : Instruction, w ≠ i.word) ∧ (cpu.execute w m).machine = m ∧
      (cpu.execute w m).processor = cpu) ∨
    ∃ (i : Instruction) (number : Int), w = i.word ∧
      (i.effect cpu.platform number m).failure = none ∧
      (cpu.execute w m).machine = (i.effect cpu.platform number m).machine ∧
      (cpu.execute w m).processor = { cpu with
        source := { cpu.source with
          taken := cpu.source.taken + if i.isRandom then 1 else 0 } } := by
  cases hi : Instruction.ofWord? w with
  | none =>
    have hnone : ∀ i : Instruction, w ≠ i.word := by
      rintro i rfl
      rw [Instruction.ofWord?_word] at hi
      cases hi
    rw [execute_unknown cpu hi]
    exact Or.inl ⟨hnone, rfl, rfl⟩
  | some i =>
    have hword := (Instruction.ofWord?_eq_some_iff hw).mp hi
    cases hn : cpu.numberFor i with
    | error e =>
      rw [execute_dry cpu hi hn] at h
      cases h
    | ok r =>
      obtain ⟨number, source⟩ := r
      cases he : (i.effect cpu.platform number m).failure with
      | some e =>
        rw [execute_stopped cpu hi hn he] at h
        cases h
      | none =>
        rw [execute_done cpu hi hn he, numberFor_taken hn]
        exact Or.inr ⟨i, number, hword.symm, he, rfl, rfl⟩

end Processor

/-- Machines that differ at no place differ at most in the counter. -/
theorem Machine.Confined.eq_of_nowhere {m n : Machine} {places : Place → Prop}
    (h : m.Confined n places) (hnowhere : ∀ place, ¬ places place) :
    n = { m with counter := n.counter } := by
  refine eq_of_sameAt rfl fun place => ?_
  have hsame := (h place).resolve_left (hnowhere place)
  cases place <;> exact hsame

/-- Executing a word that is not stopped changes nothing but the counter and the write set of the
word. A call adds one entry to the stack and a return removes one. A word that is for a random
number asks for one, and no other word does. -/
theorem execute_write_set {cpu : Processor} {m : Machine} (hm : m.stack.Sound) {w : Nat}
    (hw : w < 0x10000) {known : Bool} (h : (cpu.execute w m).result = .ok known) :
    m.Confined (cpu.execute w m).machine (Writes cpu.platform.dialect m w) ∧
    ((∀ place, ¬ Writes cpu.platform.dialect m w place) →
      ∃ counter, (cpu.execute w m).machine = { m with counter := counter }) ∧
    (∀ target, w = wordOfAddress 0x2 target →
      ∃ entry, (cpu.execute w m).machine.stack.entries = m.stack.entries ++ [entry]) ∧
    (w = 0x00EE →
      ∃ entry, m.stack.entries = (cpu.execute w m).machine.stack.entries ++ [entry]) ∧
    ((∃ x mask, w = wordOfByte 0xC x mask) → (cpu.execute w m).processor =
      { cpu with source := { cpu.source with taken := cpu.source.taken + 1 } }) ∧
    ((¬ ∃ x mask, w = wordOfByte 0xC x mask) → (cpu.execute w m).processor = cpu) := by
  have hconfined : m.Confined (cpu.execute w m).machine (Writes cpu.platform.dialect m w) := by
    rcases Processor.execute_ok hw h with ⟨-, hmachine, -⟩ | ⟨i, number, rfl, -, hmachine, -⟩
    · rw [hmachine]
      exact Machine.Confined.refl m _
    · rw [hmachine]
      exact i.effect_confined cpu.platform number m
  refine ⟨hconfined, fun hnowhere => ⟨_, hconfined.eq_of_nowhere hnowhere⟩, ?_⟩
  rcases Processor.execute_ok hw h with ⟨hnone, -, hcpu⟩ | ⟨i, number, rfl, he, hmachine, hcpu⟩
  · refine ⟨fun target hcall => absurd hcall (hnone (.call target)),
      fun hret => absurd hret (hnone .ret), ?_, fun _ => hcpu⟩
    rintro ⟨x, mask, hrandom⟩
    exact absurd hrandom (hnone (.random x mask))
  · rw [hmachine, hcpu]
    refine ⟨?_, ?_, ?_, ?_⟩
    · intro target hcall
      obtain rfl : i = .call target := Instruction.word_injective hcall
      exact ⟨_, hm.entries_push (Instruction.effect_call he)⟩
    · intro hret
      obtain rfl : i = .ret := Instruction.word_injective hret
      exact ⟨_, hm.entries_pop (Instruction.effect_ret he)⟩
    · intro hrandom
      rw [if_pos (Instruction.isRandom_iff.mpr hrandom)]
    · intro hother
      rw [if_neg (mt Instruction.isRandom_iff.mp hother)]
      rfl

/-- A processor whose dialect makes the least of its instructions, with numbers above a byte. -/
def plainProcessor : Processor where
  platform := Platform.preset "superchip" 30 {}
  source := ⟨fun _ => some 0x1FF, 7⟩

theorem execute_write_set_random :
    (plainProcessor.execute 0xC30F (Machine.fresh plainProcessor.platform)).result = .ok true ∧
      (plainProcessor.execute 0xC30F (Machine.fresh plainProcessor.platform)).machine.reg 3 = 0x0F ∧
      (Machine.fresh plainProcessor.platform).Confined
        (plainProcessor.execute 0xC30F (Machine.fresh plainProcessor.platform)).machine
        (Writes plainProcessor.platform.dialect (Machine.fresh plainProcessor.platform) 0xC30F) ∧
      (plainProcessor.execute 0xC30F
        (Machine.fresh plainProcessor.platform)).processor.source.taken = 8 := by
  have hresult : (plainProcessor.execute 0xC30F
      (Machine.fresh plainProcessor.platform)).result = .ok true := rfl
  have hsound : (Machine.fresh plainProcessor.platform).stack.Sound := ⟨rfl, rfl, Nat.zero_le _⟩
  obtain ⟨hconfined, -, -, -, hrandom, -⟩ := execute_write_set hsound (by decide) hresult
  exact ⟨hresult, rfl, hconfined, congrArg (fun cpu => cpu.source.taken) (hrandom ⟨3, 0x0F, rfl⟩)⟩

end Chip8
