import Predication.Arena

/-!
The buffer in which the texts of files stand one after the other. Room is taken ahead of the text,
so that adding a file seldom moves what is there, and room without text holds zero bytes. An excerpt
may reach to the end of the room.
-/

set_option autoImplicit false
set_option relaxedAutoImplicit false

namespace Predication.Listing

def roomSizes : List Nat :=
  [8, 16, 24, 32, 48, 64, 80, 96, 112, 128, 144, 160, 176, 192, 208, 224, 240, 256, 288, 320, 352,
    384, 416, 448, 480, 512, 576, 640, 704, 768, 896, 1024, 1152, 1280, 1408, 1536, 1792, 2048,
    2304, 2688, 3072, 3200, 3456, 4096, 4864, 5120, 5376, 6144, 6528, 6784, 6912, 8192, 9472, 9728,
    10240, 10880, 12288, 13568, 14336, 16384, 18432, 19072, 20480, 21760, 24576, 27264, 28672,
    32768]

def pageSize : Nat := 8192

def roomFor (n : Nat) : Nat :=
  (roomSizes.find? (n ≤ ·)).getD ((n + pageSize - 1) / pageSize * pageSize)

def enlarged (needed room : Nat) : Nat :=
  if room < needed then enlarged needed (room + (room + 768) / 4) else room
termination_by needed - room

/-- The room for `needed` bytes where there was `room` before: no more than needed if that is over
twice as much, twice as much for a small room, and somewhat more for a large one. -/
def nextRoom (room needed : Nat) : Nat :=
  if needed ≤ room then room
  else if 2 * room < needed then roomFor needed
  else if room < 256 then roomFor (2 * room)
  else roomFor (enlarged needed room)

/-- Texts and the room that they stand in. -/
structure Buffer where
  bytes : List UInt8 := []
  room : Nat := 0
  deriving Repr, DecidableEq

def Buffer.add (b : Buffer) (text : List UInt8) : Buffer :=
  { bytes := b.bytes ++ text, room := nextRoom b.room (b.bytes.length + text.length) }

def Buffer.excerpt (b : Buffer) (i j : Int) : Except Fault (List UInt8) := do
  let unused := List.replicate (b.room - b.bytes.length) 0
  Arena.since (← Arena.upTo (b.bytes ++ unused) j) i

end Predication.Listing
