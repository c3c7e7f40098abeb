import TapiOS.Util.Memory

/-!
# PCI configuration space, dev/pci.c

The configuration space is storage of 32-bit words behind two ports: one takes the address
of a word, the other reads or writes the word there.
-/
namespace TapiOS.Pci

open Util

def CONFIG_ADDRESS : BitVec 16 := 0xCF8
def CONFIG_DATA : BitVec 16 := 0xCFC

/-- The address last written to CONFIG_ADDRESS, and the words. -/
structure Bus where
  address : Word
  config : Word → Word

def outdw (p : Bus) (port : BitVec 16) (src : Word) : Bus :=
  if port = CONFIG_ADDRESS then { p with address := src }
  else if port = CONFIG_DATA then
    { p with config := fun a => if a = p.address then src else p.config a }
  else p

def indw (p : Bus) (port : BitVec 16) : Word :=
  if port = CONFIG_DATA then p.config p.address else 0

/-- struct pci_config as a word: from the top `enabled`, seven reserved bits that the bus
ignores, the bus, five bits of device, three of function, six of register and two zero bits. -/
def pciConfig (bus device func offset : Byte) : Word :=
  BitVec.ofNat 32 (2 ^ 31 + bus.toNat * 2 ^ 16 + device.toNat % 2 ^ 5 * 2 ^ 11 +
    func.toNat % 2 ^ 3 * 2 ^ 8 + (offset >>> 2).toNat * 2 ^ 2)

def pciConfigReadWord (p : Bus) (bus device func offset : Byte) : BitVec 16 × Bus :=
  let p := outdw p CONFIG_ADDRESS (pciConfig bus device func offset)
  ((indw p CONFIG_DATA >>> ((offset &&& 2) * 8).toNat).setWidth 16, p)

def pciConfigReadDword (p : Bus) (bus device func offset : Byte) : Word × Bus :=
  let (high, p) := pciConfigReadWord p bus device func (offset + 2)
  let (low, p) := pciConfigReadWord p bus device func offset
  (high.setWidth 32 <<< 16 ||| low.setWidth 32, p)

/-- The data goes out as a whole word, whichever half the offset names. -/
def pciConfigWriteWord (p : Bus) (bus device func offset : Byte) (data : BitVec 16) : Bus :=
  let p := outdw p CONFIG_ADDRESS (pciConfig bus device func offset)
  outdw p CONFIG_DATA (data.setWidth 32)

/-- A place of a 16-bit configuration word: a half of a 32-bit word. -/
structure Place where
  bus : Byte
  device : BitVec 5
  func : BitVec 3
  dword : BitVec 6
  high : Bool
  deriving DecidableEq

namespace Place

/-- The even offsets. -/
def offset (x : Place) : Byte := x.dword ++ (if x.high then 2#2 else 0#2)

/-- The other half of the same 32-bit word. -/
def neighbour (x : Place) : Place := { x with high := !x.high }

def address (x : Place) : Word :=
  pciConfig x.bus (x.device.setWidth 8) (x.func.setWidth 8) x.offset

end Place

def wordAt (p : Bus) (x : Place) : BitVec 16 :=
  (pciConfigReadWord p x.bus (x.device.setWidth 8) (x.func.setWidth 8) x.offset).1

def write (p : Bus) (x : Place) (data : BitVec 16) : Bus :=
  pciConfigWriteWord p x.bus (x.device.setWidth 8) (x.func.setWidth 8) x.offset data

/-- A written word reads back, no other word has changed, and a 32-bit read joins two words. -/
structure ReadsBack (p : Bus) (x : Place) (data : BitVec 16) : Prop where
  same : wordAt (write p x data) x = data
  others : ∀ y, y ≠ x → wordAt (write p x data) y = wordAt p y
  dword : ∀ bus device func offset : Byte, offset.toNat % 4 = 0 →
    (pciConfigReadDword (write p x data) bus device func offset).1 =
      (pciConfigReadWord (write p x data) bus device func (offset + 2)).1 ++
        (pciConfigReadWord (write p x data) bus device func offset).1

variable {p : Bus} {x y : Place} {data : BitVec 16}

theorem offset_bits (d : BitVec 6) (b : Bool) :
    let o : Byte := d ++ (if b then 2#2 else 0#2)
    (o >>> 2).toNat = d.toNat ∧ ((o &&& 2) * 8).toNat = if b then 16 else 0 := by
  revert d b
  decide +kernel

theorem wordAt_eq (p : Bus) (x : Place) : wordAt p x =
    (p.config x.address >>> if x.high then 16 else 0).setWidth 16 := by
  show (p.config x.address >>> ((x.offset &&& 2) * 8).toNat).setWidth 16 = _
  rw [Place.offset, (offset_bits _ _).2]

theorem write_config (a : Word) : (write p x data).config a =
    if a = x.address then data.setWidth 32 else p.config a := rfl

theorem address_neighbour (x : Place) : x.neighbour.address = x.address := by
  unfold Place.address pciConfig Place.offset
  rw [(offset_bits _ _).1, (offset_bits _ _).1]
  rfl

/-- Two places share a 32-bit word only if they are the same or its two halves. -/
theorem address_eq (h : y.address = x.address) : y = x ∨ y = x.neighbour := by
  obtain ⟨b, d, f, o, high⟩ := x
  obtain ⟨b', d', f', o', high'⟩ := y
  have hn := congrArg BitVec.toNat h
  simp only [Place.address, Place.offset, pciConfig, (offset_bits _ _).1, BitVec.toNat_ofNat,
    BitVec.toNat_setWidth] at hn
  have hb : b' = b := by bv_omega
  have hd : d' = d := by bv_omega
  have hf : f' = f := by bv_omega
  have ho : o' = o := by bv_omega
  subst hb hd hf ho
  cases high <;> cases high' <;> simp [Place.neighbour]

/-- In the word that was written, the lower half has the data and the upper half is zero. -/
theorem wordAt_write (h : y.address = x.address) :
    wordAt (write p x data) y = if y.high then 0 else data := by
  rw [wordAt_eq, write_config, if_pos h]
  split_ifs
  · apply BitVec.eq_of_toNat_eq
    have hhigh : (data.setWidth 32 >>> 16).toNat = 0 := by
      rw [BitVec.toNat_ushiftRight, Nat.shiftRight_eq_div_pow, BitVec.toNat_setWidth]
      omega
    rw [BitVec.toNat_setWidth, hhigh]
    rfl
  · rw [BitVec.ushiftRight_zero, BitVec.setWidth_setWidth_of_le _ (by decide), BitVec.setWidth_eq]

theorem shiftLeft_or (high low : BitVec 16) :
    high.setWidth 32 <<< 16 ||| low.setWidth 32 = (high ++ low : BitVec 32) := by
  apply BitVec.eq_of_getLsbD_eq
  intro i hi
  have happ : (high ++ low).getLsbD i = if i < 16 then low.getLsbD i else high.getLsbD (i - 16) :=
    BitVec.getLsbD_append
  rw [happ]
  by_cases hlt : i < 16
  · simp [hlt, hi]
  · simp [hlt, hi, BitVec.getLsbD_of_ge low i (by omega)]

theorem readDword_eq (p : Bus) (bus device func offset : Byte) :
    (pciConfigReadDword p bus device func offset).1 =
      (pciConfigReadWord p bus device func (offset + 2)).1 ++
        (pciConfigReadWord p bus device func offset).1 :=
  shiftLeft_or _ _

/-- A word written reads back and nothing else changes exactly if the other half of the
32-bit word is zero, and for an upper half the data too. -/
theorem writeWord_reads_back_iff (p : Bus) (x : Place) (data : BitVec 16) :
    ReadsBack p x data ↔ wordAt p x.neighbour = 0 ∧ (x.high = false ∨ data = 0) := by
  have hsame : wordAt (write p x data) x = _ := wordAt_write rfl
  have hnext : wordAt (write p x data) x.neighbour = _ := wordAt_write (address_neighbour x)
  have hne : x.neighbour ≠ x := fun he => Bool.not_ne_self _ (congrArg Place.high he)
  change _ = if !x.high then _ else _ at hnext
  constructor
  · intro h
    have ho := h.others _ hne
    have hs := h.same
    rw [hsame] at hs
    rw [hnext] at ho
    cases hx : x.high with
    | false =>
      rw [hx] at ho
      exact ⟨ho.symm, .inl rfl⟩
    | true =>
      rw [hx] at hs ho
      exact ⟨ho.symm.trans hs.symm, .inr hs.symm⟩
  · intro ⟨h0, hd⟩
    refine ⟨?_, fun y hy => ?_, fun bus device func offset _ => readDword_eq _ _ _ _ _⟩
    · rw [hsame]
      split_ifs with hx
      · exact (hd.resolve_left (by simp [hx])).symm
      · rfl
    · by_cases ha : y.address = x.address
      · obtain rfl := (address_eq ha).resolve_left hy
        rw [hnext, h0]
        split_ifs with hx
        · rfl
        · exact hd.resolve_left (by simpa using hx)
      · rw [wordAt_eq, wordAt_eq, write_config, if_neg ha]

/-- Writing the command register of a device clears its status register. -/
theorem writeWord_clears_neighbour :
    ¬ReadsBack ⟨0, fun _ => 0x02800000⟩ ⟨0, 3, 0, 1, false⟩ 7 := by
  intro h
  exact absurd (h.others ⟨0, 3, 0, 1, true⟩ (by decide)) (by decide)

section Devices

/-! The devices on the bus. -/

structure PciDevice where
  vendorId : BitVec 16
  deviceId : BitVec 16
  busId : Byte
  busDeviceId : Byte

def pciGetVendorId (p : Bus) (bus device : Byte) := pciConfigReadWord p bus device 0 0
def pciGetDeviceId (p : Bus) (bus device : Byte) := pciConfigReadWord p bus device 0 2

/-- The body of the loops of pci_enumerate_devices, none for the PANIC. -/
def enumerateAt (s : List PciDevice × Bus) (x : Byte × Byte) : Option (List PciDevice × Bus) :=
  let vendor := pciGetVendorId s.2 x.1 x.2
  if vendor.1 = 0xFFFF then some (s.1, vendor.2)
  else
    let vendor := pciGetVendorId vendor.2 x.1 x.2
    let headerType := pciConfigReadWord vendor.2 x.1 x.2 0 0xD
    if headerType.1.setWidth 8 = (0 : Byte) then
      let device := pciGetDeviceId headerType.2 x.1 x.2
      some (s.1 ++ [⟨vendor.1, device.1, x.1, x.2⟩], device.2)
    else none

def places : List (Byte × Byte) :=
  (List.range 256).flatMap fun bus =>
    (List.range 32).map fun device => (BitVec.ofNat 8 bus, BitVec.ofNat 8 device)

def pciEnumerateDevices (p : Bus) : Option (List PciDevice × Bus) :=
  places.foldlM enumerateAt ([], p)

/-- A read depends on the words only. -/
def wordOf (config : Word → Word) (x : Byte × Byte) (offset : Byte) : BitVec 16 :=
  (config (pciConfig x.1 x.2 0 offset) >>> ((offset &&& 2) * 8).toNat).setWidth 16

theorem read_eq (p : Bus) (x : Byte × Byte) (offset : Byte) :
    pciConfigReadWord p x.1 x.2 0 offset =
      (wordOf p.config x offset, ⟨pciConfig x.1 x.2 0 offset, p.config⟩) := rfl

section Words
variable (config : Word → Word) (x : Byte × Byte)

def present : Bool := wordOf config x 0 != 0xFFFF

def deviceAt : PciDevice := ⟨wordOf config x 0, wordOf config x 2, x.1, x.2⟩

/-- Two registers in front of the header type. -/
def cacheLineSize : Byte := (config (pciConfig x.1 x.2 0 0xC)).setWidth 8

def accepted : Bool := !present config x || decide (cacheLineSize config x = 0)

theorem headerType_eq : (wordOf config x 0xD).setWidth 8 = cacheLineSize config x := by
  show ((config (pciConfig x.1 x.2 0 0xC) >>> 0).setWidth 16).setWidth 8 = _
  rw [BitVec.ushiftRight_zero, BitVec.setWidth_setWidth_of_le _ (by decide)]
  rfl

end Words

theorem enumerate_eq (l : List (Byte × Byte)) (devs : List PciDevice) (p : Bus) :
    (l.foldlM enumerateAt (devs, p)).map Prod.fst =
      if l.all (accepted p.config) then
        some (devs ++ (l.filter (present p.config)).map (deviceAt p.config)) else none := by
  induction l generalizing devs p with
  | nil => simp
  | cons x l ih =>
    rw [List.foldlM_cons]
    simp only [enumerateAt, pciGetVendorId, pciGetDeviceId, read_eq, headerType_eq]
    by_cases hv : wordOf p.config x 0 = 0xFFFF
    · have hp : present p.config x = false := by
        rw [present, hv]
        rfl
      rw [if_pos hv]
      refine (ih devs _).trans ?_
      simp [accepted, hp]
    · have hp : present p.config x := bne_iff_ne.mpr hv
      rw [if_neg hv]
      by_cases hc : cacheLineSize p.config x = 0
      · rw [if_pos hc]
        refine (ih _ _).trans ?_
        simp [accepted, hp, hc, deviceAt]
      · have ha : accepted p.config x = false := by
          rw [accepted, hp, decide_eq_false hc]
          rfl
        rw [if_neg hc]
        simp [ha]

/-- The list has the devices in the order of the bus, and the kernel stops exactly if the cache
line size of one is not zero, which is read as its header type. -/
theorem devices_enumerated (p : Bus) : (pciEnumerateDevices p).map Prod.fst =
    if places.all (accepted p.config) then
      some ((places.filter (present p.config)).map (deviceAt p.config)) else none := by
  have h := enumerate_eq places [] p
  rwa [List.nil_append] at h

end Devices
end TapiOS.Pci
