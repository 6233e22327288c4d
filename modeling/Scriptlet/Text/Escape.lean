/-!
Text made visible.

Two written forms are built here.  `quoted` puts a text in double quotes for values and syntax
trees.  `visible` shows the exact spelling of a token without adding quotes.  Both write control
characters, characters that cannot be seen and marks that join the character before them as a
hexadecimal code point in braces.

The tables of characters cover a part of Unicode.  All controls, separators and private code points
are in them, and all format characters but those from U+0890 to U+08E2 and those of scripts beyond
U+FFFF.  Of the unassigned code points they hold but a few ranges, and of the joining marks those
that scripts share, the selectors of variants and the ones used most with Greek, Cyrillic, Hebrew
and Arabic letters; all others are written as they are.
-/

namespace Scriptlet.Text

/-- Ranges of characters that show nothing by themselves: controls, format characters, spaces other
than the blank, private and unassigned code points. -/
def invisibleRanges : List (Nat × Nat) :=
  [(0x00, 0x1F), (0x7F, 0xA0), (0xAD, 0xAD), (0x378, 0x379), (0x600, 0x605), (0x61C, 0x61C),
   (0x6DD, 0x6DD), (0x70F, 0x70F), (0x1680, 0x1680), (0x180E, 0x180E), (0x2000, 0x200F),
   (0x2028, 0x202F), (0x205F, 0x206F), (0x3000, 0x3000), (0xD7FC, 0xF8FF), (0xFDD0, 0xFDEF),
   (0xFEFF, 0xFEFF), (0xFFF0, 0xFFFB), (0xFFFE, 0xFFFF), (0xE0000, 0xE00FF),
   (0xE01F0, 0x10FFFF)]

/-- Ranges of combining marks, which extend the character before them. -/
def combiningRanges : List (Nat × Nat) :=
  [(0x300, 0x36F), (0x483, 0x489), (0x591, 0x5BD), (0x610, 0x61A), (0x64B, 0x65F),
   (0x1AB0, 0x1ACE), (0x1DC0, 0x1DFF), (0x200C, 0x200C), (0x20D0, 0x20F0), (0x302A, 0x302F),
   (0x3099, 0x309A), (0xFE00, 0xFE0F), (0xFE20, 0xFE2F), (0xE0100, 0xE01EF)]

def inRanges (ranges : List (Nat × Nat)) (c : Char) : Bool :=
  ranges.any fun r => r.1 ≤ c.toNat && c.toNat ≤ r.2

def isInvisible (c : Char) : Bool :=
  inRanges invisibleRanges c

def isCombining (c : Char) : Bool :=
  inRanges combiningRanges c

def hexDigits (n : Nat) : List Char :=
  Nat.toDigits 16 n

def codePoint (c : Char) : List Char :=
  ['\\', 'u', '\x7b'] ++ hexDigits c.toNat ++ ['\x7d']

def shortEscape? : Char → Option Char
  | '\x00' => some '0'
  | '\t' => some 't'
  | '\r' => some 'r'
  | '\n' => some 'n'
  | '\\' => some '\\'
  | _ => none

/-- One character of a written form.  `quotes` lists the quotes that need a backslash, and `marks`
says whether a combining mark is spelled as a code point. -/
def escapeChar (quotes : List Char) (marks : Bool) (c : Char) : List Char :=
  match shortEscape? c with
  | some e => ['\\', e]
  | none =>
      if quotes.contains c then ['\\', c]
      else if isInvisible c || marks && isCombining c then codePoint c
      else [c]

def quotedChars (s : List Char) : List Char :=
  '"' :: s.flatMap (escapeChar ['"'] true) ++ ['"']

def quoted (s : String) : String :=
  String.ofList (quotedChars s.toList)

/-- The text without quotes around it.  A combining mark shows by itself except at the start, where
it has nothing to join. -/
def visible (s : String) : String :=
  match s.toList with
  | [] => ""
  | c :: rest =>
      String.ofList
        (escapeChar ['\'', '"'] true c ++ rest.flatMap (escapeChar ['\'', '"'] false))

end Scriptlet.Text
