/-
  The grammar of a command line. A switch has a name, which follows two dashes and may be cut
  short, and perhaps a letter, which follows one dash. It is a flag or takes a value, in its own
  word or in the next. All other words are operands, of which the grammar has one.

  The words are sorted first, each by itself, and then read from left to right.
-/
import Chip8.Text.Digit
import Chip8.Text.Fields
namespace Chip8.CommandLine

open Text

/-- A switch that stands for something of type `ι`. -/
structure Switch (ι : Type) where
  meaning : ι
  name : String
  letter : Option Char
  /-- The switch takes a value. -/
  valued : Bool

/-- What is wrong with a command line. -/
inductive UsageError where
  /-- A name was cut so short that several switches have it. -/
  | ambiguous (word : String)
  | missingValue (switch : String)
  /-- A flag was given a value. -/
  | unwantedValue (switch : String)
  | badValue (switch value : String)
  | missingOperand
  /-- Words that are left over. -/
  | unexpected (words : List String)
  deriving DecidableEq

/-- The text of an error. -/
def UsageError.message : UsageError → String
  | .ambiguous word => "ambiguous option: " ++ word
  | .missingValue switch => "option --" ++ switch ++ " needs a value"
  | .unwantedValue switch => "option --" ++ switch ++ " takes no value"
  | .badValue switch value => "option --" ++ switch ++ " does not take the value '" ++ value ++ "'"
  | .missingOperand => "there is no file name"
  | .unexpected words => "unexpected words: " ++ " ".intercalate words

/-- A word, sorted by its looks. -/
inductive Word (ι : Type) where
  /-- An operand or a value. -/
  | plain (text : String)
  /-- The first word of two dashes, after which all words are plain. -/
  | divider
  /-- The letter of a switch, and what follows it without an equals sign. -/
  | letter (s : Switch ι) (rest : List Char)
  /-- A switch, and what follows an equals sign. -/
  | name (s : Switch ι) (value : Option String)
  /-- A word that looks like a switch, but is none. -/
  | stray (text : String)

/-- Two dashes. -/
def dividerText : String := "--"

/-- A text looks like a negative number: a dash, digits and perhaps a point among them, or at
their start, and perhaps a line break at the end. -/
def looksNegative : List Char → Bool
  | '-' :: cs =>
    let cs := if cs.getLast? = some '\n' then cs.dropLast else cs
    match fields '.' cs with
    | [whole] => whole != [] && whole.all isDecimal
    | [whole, decimals] => whole.all isDecimal && decimals != [] && decimals.all isDecimal
    | _ => false
  | _ => false

/-- A name and the value that follows the first equals sign. -/
def splitValue : List Char → List Char × Option String
  | [] => ([], none)
  | '=' :: value => ([], some (String.ofList value))
  | c :: rest => (c :: (splitValue rest).1, (splitValue rest).2)

variable {ι : Type}

/-- The switch of a letter. -/
def letter? (g : List (Switch ι)) (c : Char) : Option (Switch ι) :=
  g.find? fun s => s.letter == some c

/-- The switches that a name may mean: the one that has it, or else all that it begins. -/
def named (g : List (Switch ι)) (name : List Char) : List (Switch ι) :=
  match g.find? fun s => s.name.toList == name with
  | some s => [s]
  | none => g.filter fun s => name.isPrefixOf s.name.toList

/-- The sort of a word that is no switch, but begins with a dash. -/
def sortOther (text : String) : Word ι :=
  if looksNegative text.toList || text.toList.contains ' ' then .plain text else .stray text

/-- The sort of one word before the divider. After the first letter of a word an equals sign is
passed over, unless nothing follows it. -/
def sortWord (g : List (Switch ι)) (text : String) : Except UsageError (Word ι) :=
  match text.toList with
  | '-' :: '-' :: rest =>
    match named g (splitValue rest).1 with
    | [] => .ok (sortOther text)
    | [s] => .ok (.name s (splitValue rest).2)
    | _ => .error (.ambiguous text)
  | '-' :: c :: rest =>
    match letter? g c, rest with
    | none, _ => .ok (sortOther text)
    | some s, ['='] => .ok (.name s (some ""))
    | some s, '=' :: value => .ok (.letter s value)
    | some s, rest => .ok (.letter s rest)
  | _ => .ok (.plain text)

/-- The sorts of all words. -/
def sortWords (g : List (Switch ι)) : List String → Except UsageError (List (Word ι))
  | [] => .ok []
  | text :: rest =>
    if text = dividerText then .ok (.divider :: rest.map .plain)
    else do return (← sortWord g text) :: (← sortWords g rest)

/-! ## Letters in one word -/

/-- The value that is attached to a switch. In its place the divider stands for no value. -/
def attached (text : String) : Option String := if text = dividerText then none else some text

/-- How a word of letters ends. -/
inductive Ending (ι : Type) where
  | done
  /-- The last switch has its value in the word. -/
  | value (meaning : ι) (value : Option String)
  /-- The last switch takes its value from the next word. -/
  | wanting (s : Switch ι)

/-- The flags at the start of a word of letters, and what the rest comes to. -/
def letters (g : List (Switch ι)) (s : Switch ι) :
    List Char → Except UsageError (List ι × Ending ι)
  | [] => .ok (if s.valued then ([], .wanting s) else ([s.meaning], .done))
  | c :: rest =>
    if s.valued then .ok ([], .value s.meaning (attached (String.ofList (c :: rest))))
    else
      match letter? g c with
      | some next => (letters g next rest).map fun (flags, e) => (s.meaning :: flags, e)
      | none => .error (.unwantedValue s.name)

/-! ## Reading -/

/-- What a command line says. -/
structure Reading (ι : Type) where
  /-- The switches in order, each with its value. A flag has none. -/
  uses : List (ι × Option String) := []
  operand : Option String := none
  /-- Words that are left over. -/
  extras : List String := []
  /-- The error that ended the reading early. -/
  problem : Option UsageError := none

namespace Reading

/-- The reading with switches before it. -/
def addUses (uses : List (ι × Option String)) (r : Reading ι) : Reading ι :=
  { r with uses := uses ++ r.uses }

/-- The reading with a word left over before it. -/
def addExtra (text : String) (r : Reading ι) : Reading ι := { r with extras := text :: r.extras }

/-- Reads words, given the operand so far. The divider belongs to the operand that it precedes
or follows; without one it is left over. -/
def ofWords (g : List (Switch ι)) : Option String → List (Word ι) → Reading ι
  | operand, [] => { operand := operand }
  | none, .plain text :: .divider :: rest => ofWords g (some text) rest
  | none, .plain text :: rest => ofWords g (some text) rest
  | none, .divider :: .plain text :: rest => ofWords g (some text) rest
  | some operand, .plain text :: rest => (ofWords g (some operand) rest).addExtra text
  | operand, .divider :: rest => (ofWords g operand rest).addExtra dividerText
  | operand, .stray text :: rest => (ofWords g operand rest).addExtra text
  | operand, .name s (some value) :: rest =>
    if s.valued then (ofWords g operand rest).addUses [(s.meaning, attached value)]
    else { problem := some (.unwantedValue s.name) }
  | operand, .name s none :: rest =>
    if s.valued then
      match rest with
      | .plain value :: rest => (ofWords g operand rest).addUses [(s.meaning, some value)]
      | _ => { problem := some (.missingValue s.name) }
    else (ofWords g operand rest).addUses [(s.meaning, none)]
  | operand, .letter s text :: rest =>
    match letters g s text with
    | .error e => { problem := some e }
    | .ok (flags, ending) =>
      let uses := flags.map fun flag => (flag, none)
      match ending with
      | .done => (ofWords g operand rest).addUses uses
      | .value meaning value => (ofWords g operand rest).addUses (uses ++ [(meaning, value)])
      | .wanting last =>
        match rest with
        | .plain value :: rest =>
          (ofWords g operand rest).addUses (uses ++ [(last.meaning, some value)])
        | _ => { problem := some (.missingValue last.name) }

/-- Reads a command line. -/
def ofArguments (g : List (Switch ι)) (arguments : List String) :
    Except UsageError (Reading ι) :=
  (sortWords g arguments).map (ofWords g none)

end Reading

end Chip8.CommandLine
