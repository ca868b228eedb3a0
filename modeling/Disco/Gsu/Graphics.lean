import Disco.Library.Loop

/-! # The GSU's plotting hardware

Colour register, plot options and the two pixel caches, over the cartridge RAM
they are flushed to. Pixels collect in the first cache until its row of eight
is complete or another row is plotted.
-/

namespace Disco.Gsu

open Library

abbrev Byte := BitVec 8
abbrev Word := BitVec 16

/-- Cartridge RAM, by offset from its first bank. -/
abbrev Ram := Nat → Byte

def ramBytes : Nat := 131072

/-- How the machine refuses to go on. -/
inductive Fault where
  /-- A fetch outside the linked payload. -/
  | outside (pc : Nat)
  | romAddress
  | ramAddress
  /-- A word access with a RAM bank register outside the two banks. -/
  | ramBank
  | unsupported (opcode : Byte)
  deriving DecidableEq, Repr

def readRam (ram : Ram) (address : Nat) : Except Fault Byte :=
  if address < ramBytes then .ok (ram address) else .error .ramAddress

def writeRam (ram : Ram) (address : Nat) (value : Byte) : Except Fault Ram :=
  if address < ramBytes then .ok (Function.update ram address value) else .error .ramAddress

/-- One row of eight pixels waiting to be written. -/
structure PixelCache where
  group : Nat := 65536
  pending : Byte := 0
  pixels : Nat → Byte := fun _ => 0

structure Graphics where
  colr : Byte := 0
  por : Byte := 0
  mode : Byte := 1
  base : Byte := 24
  cache0 : PixelCache := {}
  cache1 : PixelCache := {}

namespace Graphics

/-- A bit of an option or mode register. -/
def bit (register mask : Byte) : Bool := register &&& mask ≠ 0

def depth (graphics : Graphics) : Nat :=
  if graphics.mode &&& 3 = 3 then 8 else if graphics.mode &&& 3 = 0 then 2 else 4

/-- The number of the character tile that holds a pixel. -/
def tile (graphics : Graphics) (x y : Nat) : Nat :=
  if bit graphics.por 16 ∨ graphics.mode &&& 0x24 = 0x24 then
    y / 128 * 512 + x / 128 * 256 + y % 128 / 8 * 16 + x % 128 / 8
  else
    let height := if bit graphics.mode 0x20 then 192 else if bit graphics.mode 4 then 160 else 128
    x / 8 * (height / 8) + y / 8

def address (graphics : Graphics) (x y : Nat) : Nat :=
  graphics.base.toNat * 1024 + graphics.tile x y * graphics.depth * 8 + y % 8 * 2

/-- Where a bit plane of a row lies. -/
def planeOffset (start plane : Nat) : Nat := start + plane / 2 * 16 + plane % 2

/-- The pending pixels of a row, merged into one of its planes. -/
def mergePlane (cache : PixelCache) (plane : Nat) (bits : Byte) : Byte :=
  (List.range 8).foldl (fun bits pixel =>
    if cache.pending.getLsbD pixel then
      let mask : Byte := 1#8 <<< (7 - pixel)
      (bits &&& ~~~mask) ||| if (cache.pixels pixel).getLsbD plane then mask else 0
    else bits) bits

def flush (graphics : Graphics) (cache : PixelCache) (ram : Ram) : Except Fault Ram :=
  if cache.pending = 0 then .ok ram
  else
    let start := graphics.address (cache.group % 32 * 8) (cache.group / 32)
    foldAll (fun ram plane => do
      let bits ← readRam ram (planeOffset start plane)
      writeRam ram (planeOffset start plane) (mergePlane cache plane bits)) ram
      (List.range graphics.depth)

def options (graphics : Graphics) (value : Byte) : Graphics := { graphics with por := value &&& 31 }

def color (graphics : Graphics) (value : Byte) : Graphics :=
  let colr :=
    if bit graphics.por 4 then (graphics.colr &&& 0xf0) ||| (value >>> 4)
    else if bit graphics.por 8 then (graphics.colr &&& 0xf0) ||| (value &&& 15)
    else value
  { graphics with colr := colr }

/-- A zero colour is transparent unless the options say otherwise. -/
def transparent (graphics : Graphics) : Bool :=
  !bit graphics.por 1 &&
    (if graphics.depth = 8 ∧ bit graphics.por 8 = false then graphics.colr = 0
      else graphics.colr &&& 15 = 0)

/-- The colour to plot, dithered by the parity of the position. -/
def plotColor (graphics : Graphics) (x y : Byte) : Byte :=
  if bit graphics.por 2 ∧ graphics.depth ≠ 8 then
    if (x ^^^ y) &&& 1 ≠ 0 then graphics.colr >>> 4 else graphics.colr &&& 15
  else graphics.colr

/-- Make the first cache hold the row of a pixel. -/
def selectRow (graphics : Graphics) (group : Nat) (ram : Ram) : Except Fault (Graphics × Ram) :=
  if graphics.cache0.group ≠ group then do
    let ram ← graphics.flush graphics.cache1 ram
    .ok ({ graphics with cache1 := graphics.cache0, cache0 := { group := group } }, ram)
  else .ok (graphics, ram)

/-- Put a pixel into the selected row; a complete row moves to the second cache. -/
def storePixel (graphics : Graphics) (x y : Byte) (ram : Ram) : Except Fault (Graphics × Ram) :=
  let pixels := Function.update graphics.cache0.pixels (x.toNat % 8) (graphics.plotColor x y)
  let pending := graphics.cache0.pending ||| (1#8 <<< (x.toNat % 8))
  let cache := { graphics.cache0 with pixels := pixels, pending := pending }
  if pending = 255 then do
    let ram ← graphics.flush graphics.cache1 ram
    .ok ({ graphics with cache1 := cache, cache0 := { cache with pending := 0 } }, ram)
  else .ok ({ graphics with cache0 := cache }, ram)

def plot (graphics : Graphics) (x y : Byte) (ram : Ram) : Except Fault (Graphics × Ram) :=
  if graphics.transparent then .ok (graphics, ram)
  else do
    let (graphics, ram) ← graphics.selectRow (y.toNat * 32 + x.toNat / 8) ram
    graphics.storePixel x y ram

/-- Read a pixel back; both caches are written out first. -/
def read (graphics : Graphics) (x y : Byte) (ram : Ram) : Except Fault (Byte × Graphics × Ram) := do
  let ram ← graphics.flush graphics.cache1 ram
  let ram ← graphics.flush graphics.cache0 ram
  let graphics := { graphics with
    cache0 := { graphics.cache0 with pending := 0 }, cache1 := { graphics.cache1 with pending := 0 } }
  let start := graphics.address x.toNat y.toNat
  let value ← foldAll (fun value plane => do
    let bits ← readRam ram (planeOffset start plane)
    .ok (value ||| if bits.getLsbD (7 - x.toNat % 8) then 1#8 <<< plane else 0)) (0 : Byte)
    (List.range graphics.depth)
  .ok (value, graphics, ram)

end Graphics

end Disco.Gsu
