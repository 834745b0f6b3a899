/-
  Dialects: the interpreters of the past disagree on the finer points of a few instructions. A
  dialect fixes six such points, and a feature names one of them.
-/
namespace Chip8

/-- A point on which interpreters disagree. -/
inductive Feature where
  /-- OR, AND and XOR clear VF afterwards. -/
  | logicClearsFlag
  /-- A block store or load leaves I past the last register. -/
  | transferMovesIndex
  /-- A sprite draw ends the frame. -/
  | drawEndsFrame
  /-- Sprite pixels past the edges wrap around. -/
  | spritesWrap
  /-- A shift takes its operand from the second register. -/
  | shiftReadsSecond
  /-- The indexed jump adds V0. -/
  | jumpAddsFirst
  deriving DecidableEq

/-- A choice for every feature. -/
structure Dialect where
  logicClearsFlag : Bool := false
  transferMovesIndex : Bool := false
  drawEndsFrame : Bool := false
  spritesWrap : Bool := false
  shiftReadsSecond : Bool := false
  jumpAddsFirst : Bool := false
  deriving DecidableEq

namespace Feature

/-- All features, in the order in which they are listed to users. -/
def all : List Feature :=
  [.logicClearsFlag, .transferMovesIndex, .drawEndsFrame, .spritesWrap, .shiftReadsSecond,
   .jumpAddsFirst]

/-- The name by which users select a feature. -/
def name : Feature → String
  | .logicClearsFlag => "vf_reset_on_add"
  | .transferMovesIndex => "load_store_increments_index"
  | .drawEndsFrame => "vertical_blank_sync"
  | .spritesWrap => "wrap_sprites"
  | .shiftReadsSecond => "shift_uses_second_operand"
  | .jumpAddsFirst => "jump_adds_first_register"

/-- The feature of a name. -/
def ofName? (name : String) : Option Feature := all.find? (·.name == name)

theorem mem_all (f : Feature) : f ∈ all := by cases f <;> decide

end Feature

namespace Dialect

/-- The choice for a feature. -/
def get (d : Dialect) : Feature → Bool
  | .logicClearsFlag => d.logicClearsFlag
  | .transferMovesIndex => d.transferMovesIndex
  | .drawEndsFrame => d.drawEndsFrame
  | .spritesWrap => d.spritesWrap
  | .shiftReadsSecond => d.shiftReadsSecond
  | .jumpAddsFirst => d.jumpAddsFirst

/-- The dialect with another choice for one feature. -/
def set (d : Dialect) (f : Feature) (on : Bool) : Dialect :=
  match f with
  | .logicClearsFlag => { d with logicClearsFlag := on }
  | .transferMovesIndex => { d with transferMovesIndex := on }
  | .drawEndsFrame => { d with drawEndsFrame := on }
  | .spritesWrap => { d with spritesWrap := on }
  | .shiftReadsSecond => { d with shiftReadsSecond := on }
  | .jumpAddsFirst => { d with jumpAddsFirst := on }

end Dialect

end Chip8
