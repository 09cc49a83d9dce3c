import Disentangle.Failure
import Disentangle.FileRecord
import Disentangle.Toml.Value
import Disentangle.TypeScript.Tree

/-!
What the program runs on. How sources are parsed, which characters can be encoded and which can
stand in the name of a file, and how far the stack reaches is not settled here: everything is done
for any platform. Half of a surrogate pair is no character, but paths may hold it; a platform has
characters that stand for such halves. They have no encoding, and yet some of them stand in names,
for the bytes of a name that is no text.
-/

namespace Disentangle

/-- Where the stack does not suffice for what is nested too deep. -/
structure StackLimits where
  /-- How many exports of a source have been claimed when the walk over its tree, which is parsed
  with or without JSX elements, exhausts the stack. -/
  walk? : Bool → Text → Option Nat
  /-- Whether going from one record to those it needs, and on from these, exhausts the stack. -/
  order : List FileRecord → SymbolTable → Bool

structure Platform where
  parse : TypeScript.SourceParser
  toml : Toml.Limits
  stack : StackLimits
  /-- Whether a character has no encoding. -/
  lacksEncoding : Char → Bool
  /-- Whether no file can have a character in its name. -/
  lacksName : Char → Bool
  lacksEncoding_of_lacksName : ∀ c, lacksName c = true → lacksEncoding c = true
  encodes_ascii : ∀ c, c.toNat < 128 → lacksEncoding c = false

namespace Platform

/-- Every character has an encoding, and the stack always suffices for sources. Of settings it
suffices for brackets and braces as far as they need at most 970 calls, two for the one and three
for the other. -/
def standard : Platform where
  parse := TypeScript.grammarParser
  toml :=
    { digits := 4300
      exhausted := fun outer _ => 970 < 2 * outer.count '[' + 3 * outer.count '\x7b' }
  stack := { walk? := fun _ _ => none, order := fun _ _ => false }
  lacksEncoding _ := false
  lacksName _ := false
  lacksEncoding_of_lacksName _ h := h
  encodes_ascii _ _ := rfl

variable (platform : Platform)

/-- What keeps a text from being encoded. -/
def textFault? (t : Text) : Option Fault :=
  if t.any platform.lacksEncoding then some .unencodable else none

/-- What keeps the system from looking at a path with the given names. -/
def pathFault? (names : List Text) : Option Fault :=
  if names.any (·.any platform.lacksName) then some .unencodable
  else if names.any (·.contains '\x00') then some .nullInPath
  else none

end Platform

end Disentangle
