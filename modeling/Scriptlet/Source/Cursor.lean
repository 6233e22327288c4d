/-!
A place in a source text, counted in bytes.

A byte is read as the character of its number, and past the end as the null character, with which no
token starts.  A move is given up where it would take a byte of a longer character for a whole one.
-/

namespace Scriptlet.Source

structure Cursor (source : String) where
  place : Nat
  place_le : place ≤ source.utf8ByteSize

def stretch? (text : String) (start stop : Nat) : Option String := do
  let first ← text.pos? ⟨start⟩
  let last ← text.pos? ⟨stop⟩
  if first ≤ last then some (String.extract first last) else none

def byteAt (source : String) (i : Nat) : Char :=
  if h : i < source.utf8ByteSize then Char.ofUInt8 (source.getUTF8Byte ⟨i⟩ h) else '\x00'

def firstFrom? (source : String) (test : Nat → Bool) (i : Nat) : Option Nat :=
  if i < source.utf8ByteSize then
    if test i then some i else firstFrom? source test (i + 1)
  else none
termination_by source.utf8ByteSize - i

def wordAt (source : String) : List Char → Nat → Bool
  | [], _ => true
  | c :: word, i => i < source.utf8ByteSize && byteAt source i = c && wordAt source word (i + 1)

namespace Cursor

variable {source : String}

def start (source : String) : Cursor source :=
  ⟨0, Nat.zero_le _⟩

def isEof (c : Cursor source) : Bool :=
  source.utf8ByteSize ≤ c.place

def current (c : Cursor source) : Char :=
  byteAt source c.place

def peek (c : Cursor source) : Char :=
  byteAt source (c.place + 1)

/-! ## Moves -/

def advance? (c : Cursor source) : Option (Cursor source) :=
  if 128 ≤ c.current.toNat then none
  else if h : c.place < source.utf8ByteSize then some ⟨c.place + 1, h⟩
  else some c

def advanceChar? (c : Cursor source) : Option (Option Char × Cursor source) := do
  let p ← source.pos? ⟨c.place⟩
  if h : p = source.endPos then some (none, c)
  else some (some (p.get h), ⟨(p.next h).offset.byteIdx, (p.next h).isValid.le_rawEndPos⟩)

def eat? (c : Cursor source) (expected : Char) : Option (Cursor source) :=
  if h : c.place < source.utf8ByteSize then
    if c.current = expected then some ⟨c.place + 1, h⟩ else none
  else none

def eatWhile (c : Cursor source) (test : Char → Bool) : Cursor source :=
  if h : c.place < source.utf8ByteSize then
    if test c.current then eatWhile ⟨c.place + 1, h⟩ test else c
  else c
termination_by source.utf8ByteSize - c.place

def jump (c : Cursor source) (length : Nat) : Cursor source :=
  ⟨min (c.place + length) source.utf8ByteSize, Nat.min_le_right _ _⟩

def skip (c : Cursor source) (length : Nat) : Nat × Cursor source :=
  let next := c.jump length
  ((source.toByteArray.extract c.place next.place).data.count 10, next)

def skipToEnd (c : Cursor source) : Nat × Cursor source :=
  c.skip (source.utf8ByteSize - c.place)

def rewind? (c : Cursor source) (place : Nat) : Option (Cursor source) :=
  if h : place ≤ c.place then some ⟨place, Nat.le_trans h c.place_le⟩ else none

/-! ## Searches -/

def find? (c : Cursor source) (test : Char → Bool) : Option Nat :=
  (firstFrom? source (fun i => test (byteAt source i)) c.place).map (· - c.place)

def findWord? (c : Cursor source) (word : List Char) : Option Nat :=
  (firstFrom? source (wordAt source word) c.place).map (· - c.place)

def skipToNewline (c : Cursor source) : Cursor source :=
  c.jump ((c.find? (· = '\n')).getD (source.utf8ByteSize - c.place))

def sliceFrom? (c : Cursor source) (start : Nat) : Option String :=
  stretch? source start c.place

end Cursor

end Scriptlet.Source
