/-!
# Printable characters

Code points that have no visible form of their own: controls, format characters, separators other
than the plain space, private-use code points and noncharacters.
-/

namespace FlowDominance.Text

structure CodeRange where
  first : Nat
  last : Nat
  deriving Repr, DecidableEq

def invisibleRanges : List CodeRange :=
  [⟨0x0, 0x1f⟩, ⟨0x7f, 0xa0⟩, ⟨0xad, 0xad⟩, ⟨0x600, 0x605⟩, ⟨0x61c, 0x61c⟩, ⟨0x6dd, 0x6dd⟩,
   ⟨0x70f, 0x70f⟩, ⟨0x890, 0x891⟩, ⟨0x8e2, 0x8e2⟩, ⟨0x1680, 0x1680⟩, ⟨0x180e, 0x180e⟩,
   ⟨0x2000, 0x200f⟩, ⟨0x2028, 0x202f⟩, ⟨0x205f, 0x206f⟩, ⟨0x3000, 0x3000⟩, ⟨0xd800, 0xf8ff⟩,
   ⟨0xfdd0, 0xfdef⟩, ⟨0xfeff, 0xfeff⟩, ⟨0xfff0, 0xfffb⟩, ⟨0xfffe, 0xffff⟩, ⟨0x110bd, 0x110bd⟩,
   ⟨0x110cd, 0x110cd⟩, ⟨0x13430, 0x1343f⟩, ⟨0x1bca0, 0x1bca3⟩, ⟨0x1d173, 0x1d17a⟩,
   ⟨0x1fffe, 0x1ffff⟩, ⟨0x2fffe, 0x2ffff⟩, ⟨0x3fffe, 0xe00ff⟩, ⟨0xe01f0, 0x10ffff⟩]

def isPrintable (c : Char) : Bool :=
  !invisibleRanges.any (fun r => r.first ≤ c.toNat && c.toNat ≤ r.last)

end FlowDominance.Text
