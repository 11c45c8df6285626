-- The accesses of the CPU to the ports, `io.c`: a wide one goes down the lists of its
-- ports in passes, each of one width, and asks or tells the handlers that have no
-- function for a wider one. What the functions of the devices do is left open, but that
-- they leave the lists of this access and its window alone.
import BluMach.Io

namespace blumach.io

def FLAG_CONFIG_IO_ON : BitVec 32 := 0x00000008
def FLAG_CONFIG_DEV0_IO_ON : BitVec 32 := 0x00000010

/-- Where the configuration window of PCI is. -/
structure Pci where
  pci_flags : BitVec 32
  pci_base : BitVec 32
  pci_size : BitVec 32

def Pci.window (p : Pci) (port : BitVec 16) : Bool :=
  (p.pci_flags &&& FLAG_CONFIG_IO_ON != 0 && p.pci_base ≤ port.setWidth 32 &&
    port.setWidth 32 < p.pci_base + p.pci_size) ||
  (p.pci_flags &&& FLAG_CONFIG_DEV0_IO_ON != 0 && 0xc000 ≤ port && port < 0xc100)

/-- The functions of the devices, and what an access keeps besides: its number, width, port and
value for the devices that look at them, then the latch of the Amstrads and the cycles, which
depend on whether a handler was found. -/
structure Devices (m : Type → Type) (F V : Type) where
  inb : F → BitVec 16 → V → m (BitVec 8)
  inw : F → BitVec 16 → V → m (BitVec 16)
  inl : F → BitVec 16 → V → m (BitVec 32)
  outb : F → BitVec 16 → BitVec 8 → V → m Unit
  outw : F → BitVec 16 → BitVec 16 → V → m Unit
  outl : F → BitVec 16 → BitVec 32 → V → m Unit
  pci : Pci
  pci_read : BitVec 16 → m (BitVec 8)
  pci_readw : BitVec 16 → m (BitVec 16)
  pci_readl : BitVec 16 → m (BitVec 32)
  pci_write : BitVec 16 → BitVec 8 → m Unit
  pci_writew : BitVec 16 → BitVec 16 → m Unit
  pci_writel : BitVec 16 → BitVec 32 → m Unit
  io_access : Nat → BitVec 16 → Option (BitVec 32) → m Unit
  after_in : BitVec 16 → Bool → m Unit
  after_out : Nat → BitVec 16 → Bool → m Unit

section

variable {m : Type → Type} [Monad m] {F V : Type} {w : Nat}

/-- A loop down the list of a port: the answers of the handlers that have such a function. -/
def ask_all (use : Io F V → Option F) (ask : F → V → m (BitVec w)) (l : List (Io F V))
    (ret : BitVec w) : m (BitVec w) :=
  l.foldlM (fun ret p =>
    match use p with
    | some f => (fun v => ret &&& v) <$> ask f p.priv
    | none => pure ret) ret

/-- A loop down the list of a port: the handlers that have such a function are told. -/
def tell_all (use : Io F V → Option F) (tell : F → V → m Unit) (l : List (Io F V)) : m Unit :=
  l.forM fun p =>
    match use p with
    | some f => tell f p.priv
    | none => pure ()

/-- `found`, of one of these loops. -/
def found (use : Io F V → Option F) (l : List (Io F V)) : Bool := l.any fun p => (use p).isSome

/-- `p->f && !p->wider` -/
def without (wider f : Option F) : Option F := if wider.isSome then none else f

variable (d : Devices m F V) (io : BitVec 16 → List (Io F V)) (port : BitVec 16)

/-- The loops of `inb`, where no window is. -/
def inb_lists : m (BitVec 8) :=
  ask_all (fun p => p.inb) (fun f priv => d.inb f port priv) (io port) 0xff

def inb_found : Bool := found (fun p => p.inb) (io port)

def inb : m (BitVec 8) := do
  d.io_access 1 port none
  let ret ← if d.pci.window port then d.pci_read port else inb_lists d io port
  d.after_in port (d.pci.window port || inb_found io port)
  return ret

def outb_lists (val : BitVec 8) : m Unit :=
  tell_all (fun p => p.outb) (fun f priv => d.outb f port val priv) (io port)

def outb_found : Bool := found (fun p => p.outb) (io port)

def outb (val : BitVec 8) : m Unit := do
  d.io_access 1 port (some (val.setWidth 32))
  if d.pci.window port then d.pci_write port val else outb_lists d io port val
  d.after_out 1 port (d.pci.window port || outb_found io port)

def inw_lists : m (BitVec 16) := do
  let ret ← ask_all (fun p => p.inw) (fun f priv => d.inw f port priv) (io port) 0xffff
  let byte := fun (i : BitVec 16) => ask_all (fun p => without p.inw p.inb)
    (fun f priv => d.inb f (port + i) priv) (io (port + i))
  let ret0 ← byte 0 (ret.extractLsb' 0 8)
  let ret1 ← byte 1 (ret.extractLsb' 8 8)
  return ret1 ++ ret0

def inw_found : Bool :=
  let byte := fun (i : BitVec 16) => found (fun p => without p.inw p.inb) (io (port + i))
  found (fun p => p.inw) (io port) || byte 0 || byte 1

def inw : m (BitVec 16) := do
  d.io_access 2 port none
  let ret ← if d.pci.window port then d.pci_readw port else inw_lists d io port
  d.after_in port (d.pci.window port || inw_found io port)
  return ret

def outw_lists (val : BitVec 16) : m Unit := do
  tell_all (fun p => p.outw) (fun f priv => d.outw f port val priv) (io port)
  let byte := fun (i : BitVec 16) (v : BitVec 8) => tell_all (fun p => without p.outw p.outb)
    (fun f priv => d.outb f (port + i) v priv) (io (port + i))
  byte 0 (val.extractLsb' 0 8)
  byte 1 (val.extractLsb' 8 8)

def outw_found : Bool :=
  let byte := fun (i : BitVec 16) => found (fun p => without p.outw p.outb) (io (port + i))
  found (fun p => p.outw) (io port) || byte 0 || byte 1

def outw (val : BitVec 16) : m Unit := do
  d.io_access 2 port (some (val.setWidth 32))
  if d.pci.window port then d.pci_writew port val else outw_lists d io port val
  d.after_out 2 port (d.pci.window port || outw_found io port)

def inl_lists : m (BitVec 32) := do
  let ret ← ask_all (fun p => p.inl) (fun f priv => d.inl f port priv) (io port) 0xffffffff
  let word := fun (i : BitVec 16) => ask_all (fun p => without p.inl p.inw)
    (fun f priv => d.inw f (port + i) priv) (io (port + i))
  let low ← word 0 (ret.extractLsb' 0 16)
  let high ← word 2 (ret.extractLsb' 16 16)
  let ret : BitVec 32 := high ++ low
  let byte := fun (i : BitVec 16) => ask_all (fun p => without p.inl (without p.inw p.inb))
    (fun f priv => d.inb f (port + i) priv) (io (port + i))
  let ret0 ← byte 0 (ret.extractLsb' 0 8)
  let ret1 ← byte 1 (ret.extractLsb' 8 8)
  let ret2 ← byte 2 (ret.extractLsb' 16 8)
  let ret3 ← byte 3 (ret.extractLsb' 24 8)
  return ret3 ++ (ret2 ++ (ret1 ++ ret0))

def inl_found : Bool :=
  let word := fun (i : BitVec 16) => found (fun p => without p.inl p.inw) (io (port + i))
  let byte := fun (i : BitVec 16) =>
    found (fun p => without p.inl (without p.inw p.inb)) (io (port + i))
  found (fun p => p.inl) (io port) || word 0 || word 2 || byte 0 || byte 1 || byte 2 || byte 3

def inl : m (BitVec 32) := do
  d.io_access 4 port none
  let ret ← if d.pci.window port then d.pci_readl port else inl_lists d io port
  d.after_in port (d.pci.window port || inl_found io port)
  return ret

def outl_lists (val : BitVec 32) : m Unit := do
  tell_all (fun p => p.outl) (fun f priv => d.outl f port val priv) (io port)
  let word := fun (i : BitVec 16) (v : BitVec 16) => tell_all (fun p => without p.outl p.outw)
    (fun f priv => d.outw f (port + i) v priv) (io (port + i))
  word 0 (val.extractLsb' 0 16)
  word 2 (val.extractLsb' 16 16)
  let byte := fun (i : BitVec 16) (v : BitVec 8) =>
    tell_all (fun p => without p.outl (without p.outw p.outb))
      (fun f priv => d.outb f (port + i) v priv) (io (port + i))
  byte 0 (val.extractLsb' 0 8)
  byte 1 (val.extractLsb' 8 8)
  byte 2 (val.extractLsb' 16 8)
  byte 3 (val.extractLsb' 24 8)

def outl_found : Bool :=
  let word := fun (i : BitVec 16) => found (fun p => without p.outl p.outw) (io (port + i))
  let byte := fun (i : BitVec 16) =>
    found (fun p => without p.outl (without p.outw p.outb)) (io (port + i))
  found (fun p => p.outl) (io port) || word 0 || word 2 || byte 0 || byte 1 || byte 2 || byte 3

def outl (val : BitVec 32) : m Unit := do
  d.io_access 4 port (some val)
  if d.pci.window port then d.pci_writel port val else outl_lists d io port val
  d.after_out 4 port (d.pci.window port || outl_found io port)

end

end blumach.io
