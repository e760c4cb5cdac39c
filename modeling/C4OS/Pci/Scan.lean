import C4OS.Foundations.Bytes
import C4OS.Foundations.Searches
import C4OS.Libc.Debug

/-!
# The scan of the bus

The program `pci.c`. It reads the configuration space of a function through two ports: an address is
written to the first one, and the word at the address is read from the second one. The loops go
through buses, devices and functions; a device without a function 0 is passed over, and function 7
is not looked at.

The program prints a line for each function that it comes to (`functions`), in this order, and ends
at the first one whose class is not in the table of names. The function that is looked up is the
first one in the same list. `main_prints` says what the whole program prints, for every
configuration space.
-/

namespace C4OS.Pci

open Foundations
open Libc (numeral decimalDigits hexDigits storeDigits storeDigits_eq)

/-- A character string. -/
def chars (s : String) : List UInt8 := s.toList.map fun c => UInt8.ofNat c.toNat

/-! ## The machine -/

/-- The register of the host bridge that holds an address, and what was printed. -/
structure Machine where
  address : ℕ
  output : List UInt8

/-- Programs on the machine. -/
abbrev Io := Code Machine

/-- The configuration space: the bytes of each bus, device and function. -/
abbrev Config := ℕ → ℕ → ℕ → ℕ → UInt8

/-- `PCI_CONFIG_ADDRESS`. -/
abbrev pciConfigAddress : ℕ := 0xcf8

/-- `PCI_CONFIG_DATA`. -/
abbrev pciConfigData : ℕ := 0xcfc

/-- The word at an address of the configuration space, if the address is enabled. -/
def configWord (config : Config) (address : ℕ) : ℕ :=
  if address.testBit 31 then
    readLE 4
      (config (address / 2 ^ 16 % 2 ^ 8) (address / 2 ^ 11 % 2 ^ 5) (address / 2 ^ 8 % 2 ^ 3))
      (address % 2 ^ 8 / 4 * 4)
  else 2 ^ 32 - 1

/-- `c4_out_dword`. -/
def outDword (port value : ℕ) : Io Unit :=
  modify fun s => if port = pciConfigAddress then { s with address := value } else s

/-- `c4_in_dword`. -/
def inDword (config : Config) (port : ℕ) : Io ℕ := do
  let s ← get
  return if port = pciConfigData then configWord config s.address else 2 ^ 32 - 1

/-- `putchar`. -/
def putchar (c : UInt8) : Io Unit := modify fun s => { s with output := s.output ++ [c] }

/-- `puts`, for the characters up to the terminator. -/
def puts : List UInt8 → Io Unit
  | [] => return ()
  | c :: l => do
    putchar c
    puts l

/-- The loops of `print_num` and `print_hex`, with an array of 32 characters and a terminator in
it. -/
def printDigits (digit : ℕ → UInt8) (base n : ℕ) : Io Unit :=
  if n = 0 then putchar 0x30
  else
    match storeDigits digit base 31 n [] with
    | none => failure
    | some l => puts l

/-- `print_num`. -/
def printNum (n : ℕ) : Io Unit := printDigits (fun d => UInt8.ofNat (d + 0x30)) 10 n

/-- `print_hex`. -/
def printHex (n : ℕ) : Io Unit := printDigits (fun d => hexDigits.getD d 0) 16 n

/-! ## The program -/

/-- `pci_device_t` that is valid. -/
structure PciDevice where
  bus : ℕ
  slot : ℕ
  func : ℕ
  deriving DecidableEq

/-- `PCI_CONFIG_VENDOR`. -/
abbrev pciConfigVendor : ℕ := 0

/-- `PCI_CONFIG_DEVICE`. -/
abbrev pciConfigDevice : ℕ := 2

/-- `PCI_CONFIG_CLASS`. -/
abbrev pciConfigClass : ℕ := 0xb

/-- `pci_conf_read_dword`. -/
def pciConfReadDword (config : Config) (dev : PciDevice) (offset : ℕ) : Io ℕ := do
  let address := 0x80000000
  let address := address ||| (dev.bus <<< 16 ||| dev.slot <<< 11 ||| dev.func <<< 8)
  let address := address ||| (offset &&& 0xfc)
  outDword pciConfigAddress address
  inDword config pciConfigData

/-- `pci_conf_read_word`. -/
def pciConfReadWord (config : Config) (dev : PciDevice) (offset : ℕ) : Io ℕ := do
  let temp ← pciConfReadDword config dev offset
  return temp >>> (offset % 4 * 8) % 2 ^ 16

/-- `pci_strings`. -/
def pciStrings : List (List UInt8) :=
  ["Old", "Mass storage controller", "Network controller", "Display controller",
    "Multimedia controller", "Memory controller", "Bridge device",
    "Simple communications controller", "Base system peripheral", "Input device controller",
    "Dock station controller", "Processor", "Serial bus controller", "Wireless controller",
    "Intelligent IO controller", "Satallite communications controller", "Crypto controller",
    "Data acquisition/Signal processing controller"].map chars

/-- A turn of the innermost loop, with what is done at a function whose vendor was read. -/
def functionTurn {β : Type} (config : Config) (visit : PciDevice → ℕ → Io (TurnEnd β))
    (bus device function : ℕ) : Io (TurnEnd β) := do
  let dev : PciDevice := ⟨bus, device, function⟩
  let vendor ← pciConfReadWord config dev pciConfigVendor
  if vendor = 0xffff then
    if function = 0 then return .leave
    return .next
  visit dev vendor

/-- The three loops over buses, devices and functions. -/
def forFunctions {β : Type} (config : Config) (visit : PciDevice → ℕ → Io (TurnEnd β)) :
    Io (Option β) :=
  search (fun bus => do
    let found ← search (fun device => do
      let found ← search (functionTurn config visit bus device) (List.range 7)
      return .ofResult found) (List.range 32)
    return .ofResult found) (List.range 256)

/-- `puts( pci_strings[class_id] )`. Behind the table there is no name, and the program ends. -/
def putsClass (classId : ℕ) : Io Unit :=
  match pciStrings[classId]? with
  | none => failure
  | some name => puts name

/-- What `pci_dump_devices` does at a function. -/
def dumpDevice (config : Config) (dev : PciDevice) (vendor : ℕ) : Io (TurnEnd Unit) := do
  let deviceId ← pciConfReadWord config dev pciConfigDevice
  let classId ← pciConfReadWord config dev pciConfigClass
  puts (chars "[pci] ")
  printHex dev.bus
  putchar 0x2e
  printHex dev.slot
  putchar 0x2e
  printHex dev.func
  putchar 0x20
  printHex vendor
  putchar 0x3a
  printHex deviceId
  puts (chars ", ")
  putsClass classId
  putchar 0x0a
  return .next

/-- `pci_dump_devices`. -/
def pciDumpDevices (config : Config) : Io Unit := do
  puts (chars "scanning pci bus...\n")
  let _ ← forFunctions config (dumpDevice config)

/-- What `pci_lookup` does at a function. -/
def compareDevice (config : Config) (vendorId deviceId : ℕ) (dev : PciDevice) (vendor : ℕ) :
    Io (TurnEnd PciDevice) := do
  let devId ← pciConfReadWord config dev pciConfigDevice
  if vendorId = vendor ∧ deviceId = devId then return .result dev
  return .next

/-- `pci_lookup`, with nothing for the invalid device. -/
def pciLookup (config : Config) (vendorId deviceId : ℕ) : Io (Option PciDevice) :=
  forFunctions config (compareDevice config vendorId deviceId)

/-- `main`, with the number of the thread. -/
def main (config : Config) (id : ℕ) : Io Unit := do
  puts (chars "hello, pci at thread ")
  printNum id
  puts (chars "\n")
  pciDumpDevices config
  let foo ← pciLookup config 0x10ec 0x8139
  if foo.isSome then puts (chars "found a realtek 8139 network card")

/-! ## What is read -/

section Reading

variable {config : Config} {bus slot func offset : ℕ}

/-- The address of a word. -/
theorem address_eq (hslot : slot < 2 ^ 5) (hfunc : func < 2 ^ 3) (hbus : bus < 2 ^ 8)
    (hoffset : offset < 2 ^ 8) :
    (0x80000000 ||| (bus <<< 16 ||| slot <<< 11 ||| func <<< 8)) ||| (offset &&& 0xfc) =
      2 ^ 31 + ((bus * 2 ^ 5 + slot) * 2 ^ 3 + func) * 2 ^ 8 + offset / 4 * 4 := by
  have hmask : ∀ offset < 2 ^ 8, offset &&& 0xfc = offset / 4 * 4 := by decide +kernel
  have hplace : bus <<< 16 ||| slot <<< 11 ||| func <<< 8 =
      ((bus * 2 ^ 5 + slot) * 2 ^ 3 + func) <<< 8 := by
    have hslots : bus <<< 16 ||| slot <<< 11 = (bus * 2 ^ 5 + slot) <<< 11 := by
      rw [← Nat.shiftLeft_add_eq_or_of_lt (by rw [Nat.shiftLeft_eq]; omega)]
      simp only [Nat.shiftLeft_eq]
      omega
    rw [hslots, ← Nat.shiftLeft_add_eq_or_of_lt (by rw [Nat.shiftLeft_eq]; omega)]
    simp only [Nat.shiftLeft_eq]
    omega
  have henable : 0x80000000 ||| ((bus * 2 ^ 5 + slot) * 2 ^ 3 + func) <<< 8 =
      (2 ^ 23 + ((bus * 2 ^ 5 + slot) * 2 ^ 3 + func)) <<< 8 := by
    have hone : 0x80000000 = 1 <<< 31 := rfl
    rw [hone, ← Nat.shiftLeft_add_eq_or_of_lt (by rw [Nat.shiftLeft_eq]; omega)]
    simp only [Nat.shiftLeft_eq]
    omega
  rw [hmask offset hoffset, hplace, henable, ← Nat.shiftLeft_add_eq_or_of_lt (by omega),
    Nat.shiftLeft_eq]
  omega

/-- The word at the address of a function. -/
theorem configWord_eq (hslot : slot < 2 ^ 5) (hfunc : func < 2 ^ 3) (hbus : bus < 2 ^ 8)
    (hoffset : offset < 2 ^ 8) :
    configWord config (2 ^ 31 + ((bus * 2 ^ 5 + slot) * 2 ^ 3 + func) * 2 ^ 8 + offset / 4 * 4) =
      readLE 4 (config bus slot func) (offset / 4 * 4) := by
  have hbit : (2 ^ 31 + ((bus * 2 ^ 5 + slot) * 2 ^ 3 + func) * 2 ^ 8 +
      offset / 4 * 4).testBit 31 = true := by
    rw [Nat.testBit_eq_decide_div_mod_eq]
    exact decide_eq_true (by omega)
  rw [configWord, if_pos hbit]
  congr 1
  · congr 1 <;> omega
  · omega

end Reading

/-- The vendor of a function. -/
def vendor (config : Config) (dev : PciDevice) : ℕ :=
  readLE 2 (config dev.bus dev.slot dev.func) 0

/-- The number of a function for its vendor. -/
def deviceId (config : Config) (dev : PciDevice) : ℕ :=
  readLE 2 (config dev.bus dev.slot dev.func) 2

/-- The class of a function. -/
def classId (config : Config) (dev : PciDevice) : ℕ := (config dev.bus dev.slot dev.func 0xb).toNat

/-- There is a function. -/
def present (config : Config) (dev : PciDevice) : Bool := vendor config dev ≠ 0xffff

/-- A place on the bus. -/
def PciDevice.OnBus (dev : PciDevice) : Prop := dev.bus < 256 ∧ dev.slot < 32 ∧ dev.func < 7

section Fields

variable {config : Config} {dev : PciDevice}

/-- A word that is read. -/
theorem prints_word (h : dev.OnBus) {offset value : ℕ} (hoffset : offset < 2 ^ 8)
    (hvalue : readLE 4 (config dev.bus dev.slot dev.func) (offset / 4 * 4) >>> (offset % 4 * 8) %
      2 ^ 16 = value) :
    Prints Machine.output (pciConfReadWord config dev offset) (some value) [] := by
  obtain ⟨hbus, hslot, hfunc⟩ := h
  intro s
  have hfunc' : dev.func < 2 ^ 3 := Nat.lt_of_lt_of_le hfunc (by decide)
  have hword : configWord config _ = readLE 4 (config dev.bus dev.slot dev.func) _ :=
    configWord_eq hslot hfunc' hbus hoffset
  rw [← address_eq hslot hfunc' hbus hoffset] at hword
  refine ⟨?_, (List.append_nil _).symm⟩
  rw [← hvalue, ← hword]
  rfl

/-- The parts of a word. -/
theorem readLE_parts (f : ℕ → UInt8) (a : ℕ) : readLE 4 f a >>> 0 % 2 ^ 16 = readLE 2 f a ∧
    readLE 4 f a >>> 16 % 2 ^ 16 = readLE 2 f (a + 2) ∧
    readLE 4 f a >>> 24 % 2 ^ 16 = (f (a + 3)).toNat := by
  have h₀ := (f a).toNat_lt
  have h₁ := (f (a + 1)).toNat_lt
  have h₂ := (f (a + 2)).toNat_lt
  have h₃ := (f (a + 3)).toNat_lt
  simp only [readLE, Nat.shiftRight_eq_div_pow, Nat.add_assoc, Nat.reduceAdd]
  omega

theorem prints_vendor (h : dev.OnBus) :
    Prints Machine.output (pciConfReadWord config dev pciConfigVendor) (some (vendor config dev))
      [] :=
  prints_word h (by decide) (readLE_parts _ 0).1

theorem prints_deviceId (h : dev.OnBus) :
    Prints Machine.output (pciConfReadWord config dev pciConfigDevice)
      (some (deviceId config dev)) [] :=
  prints_word h (by decide) (readLE_parts _ 0).2.1

/-- The class is in the last byte of its word, so that there is nothing above it. -/
theorem prints_classId (h : dev.OnBus) :
    Prints Machine.output (pciConfReadWord config dev pciConfigClass) (some (classId config dev))
      [] :=
  prints_word h (by decide) (readLE_parts _ 8).2.2

end Fields

/-! ## What is printed -/

theorem prints_putchar (c : UInt8) : Prints Machine.output (putchar c) (some ()) [c] :=
  fun _ => ⟨rfl, rfl⟩

theorem prints_puts (l : List UInt8) : Prints Machine.output (puts l) (some ()) l := by
  induction l with
  | nil => exact .pure ()
  | cons c l ih => exact (prints_putchar c).bind ih

theorem prints_digits {digit : ℕ → UInt8} (symbols : List UInt8) {n : ℕ}
    (hbase : 1 < symbols.length) (hdigit : ∀ d < symbols.length, digit d = symbols.getD d 0)
    (hn : n < 2 ^ 32) (hroom : 2 ^ 32 ≤ symbols.length ^ 31) :
    Prints Machine.output (printDigits digit symbols.length n) (some ()) (numeral symbols n) := by
  rw [printDigits, numeral]
  by_cases h : n = 0
  · rw [if_pos h, if_pos h]
    exact prints_putchar 0x30
  · rw [if_neg h, if_neg h, storeDigits_eq hbase hdigit (Nat.lt_of_lt_of_le hn hroom),
      List.append_nil]
    exact prints_puts _

theorem prints_num {n : ℕ} (h : n < 2 ^ 32) :
    Prints Machine.output (printNum n) (some ()) (numeral decimalDigits n) :=
  prints_digits decimalDigits (by decide) (by decide) h (by decide)

theorem prints_hex {n : ℕ} (h : n < 2 ^ 32) :
    Prints Machine.output (printHex n) (some ()) (numeral hexDigits n) :=
  prints_digits hexDigits (by decide) (fun _ _ => rfl) h (by decide)

/-! ## What is visited -/

/-- The functions of a device that are come to. -/
def deviceFunctions (config : Config) (bus slot : ℕ) : List PciDevice :=
  if present config ⟨bus, slot, 0⟩ then
    ((List.range 7).map fun func => ⟨bus, slot, func⟩).filter (present config)
  else []

/-- The functions that the loops come to. -/
def functions (config : Config) : List PciDevice :=
  (List.range 256).flatMap fun bus => (List.range 32).flatMap (deviceFunctions config bus)

section Visits

variable {β : Type} {config : Config} {body : PciDevice → ℕ → Io (TurnEnd β)}
  {visit : PciDevice → Option (Option β) × List UInt8} {bus slot func : ℕ}

theorem flatMap_ite {ι κ : Type} (p : κ → Bool) (f : ι → κ) (l : List ι) :
    l.flatMap (fun i => if p (f i) then [f i] else []) = (l.map f).filter p := by
  induction l with
  | nil => rfl
  | cons i l ih =>
    rw [List.flatMap_cons, ih, List.map_cons, List.filter_cons]
    split <;> rfl

theorem walk_singleton (visit : PciDevice → Option (Option β) × List UInt8) (dev : PciDevice) :
    walk visit [dev] = visit dev := by
  rw [walk]
  rcases visit dev with ⟨_ | _ | b, l⟩
  · rfl
  · exact Prod.ext rfl (List.append_nil l)
  · rfl

/-- What is done at the places on the bus. -/
def Visits (config : Config) (body : PciDevice → ℕ → Io (TurnEnd β))
    (visit : PciDevice → Option (Option β) × List UInt8) : Prop :=
  ∀ dev : PciDevice, dev.OnBus →
    Prints Machine.output (body dev (vendor config dev)) ((visit dev).1.map TurnEnd.ofResult)
      (visit dev).2

theorem present_iff {dev : PciDevice} : present config dev = true ↔ vendor config dev ≠ 0xffff := by
  rw [present, decide_eq_true_iff]

/-- The loop over the functions of a device. -/
theorem prints_device (h : Visits config body visit) (hbus : bus < 256) (hslot : slot < 32) :
    Prints Machine.output (search (functionTurn config body bus slot) (List.range 7))
      (walk visit (deviceFunctions config bus slot)).1
      (walk visit (deviceFunctions config bus slot)).2 := by
  rw [deviceFunctions]
  by_cases hzero : present config ⟨bus, slot, 0⟩
  · rw [if_pos hzero, ← flatMap_ite]
    refine .search fun func hfunc => ?_
    have hon : (⟨bus, slot, func⟩ : PciDevice).OnBus := ⟨hbus, hslot, List.mem_range.1 hfunc⟩
    by_cases hpresent : present config ⟨bus, slot, func⟩
    · rw [if_pos hpresent, walk_singleton]
      refine (prints_vendor hon).bind ?_
      rw [if_neg (present_iff.1 hpresent)]
      exact h _ hon
    · rw [if_neg hpresent]
      refine (prints_vendor hon).bind ?_
      have hfunc₀ : func ≠ 0 := fun heq => hpresent (heq ▸ hzero)
      rw [if_pos (not_not.1 fun hne => hpresent (present_iff.2 hne)), if_neg hfunc₀]
      exact .pure _
  · -- the loop is left in its first turn
    rw [if_neg hzero]
    have hon : (⟨bus, slot, 0⟩ : PciDevice).OnBus := ⟨hbus, hslot, Nat.zero_lt_succ 6⟩
    have hturn : Prints Machine.output (functionTurn config body bus slot 0) (some .leave) [] := by
      refine (prints_vendor hon).bind ?_
      rw [if_pos (not_not.1 fun hne => hzero (present_iff.2 hne)), if_pos rfl]
      exact .pure _
    exact hturn.bind (.pure none)

/-- **The loops walk over the functions.** -/
theorem prints_forFunctions (h : Visits config body visit) :
    Prints Machine.output (forFunctions config body) (walk visit (functions config)).1
      (walk visit (functions config)).2 := by
  refine .search fun bus hbus => .ofResult (.search fun slot hslot => .ofResult ?_)
  exact prints_device h (List.mem_range.1 hbus) (List.mem_range.1 hslot)

end Visits

/-! ## The whole program -/

/-- The name of a class is in the table. -/
def named (config : Config) (dev : PciDevice) : Bool := classId config dev < pciStrings.length

/-- What is printed for a function, up to its name if there is none. -/
def shown (config : Config) (dev : PciDevice) : List UInt8 :=
  chars "[pci] " ++ numeral hexDigits dev.bus ++ [0x2e] ++ numeral hexDigits dev.slot ++ [0x2e] ++
    numeral hexDigits dev.func ++ [0x20] ++ numeral hexDigits (vendor config dev) ++ [0x3a] ++
    numeral hexDigits (deviceId config dev) ++ chars ", " ++
    match pciStrings[classId config dev]? with
    | none => []
    | some name => name ++ [0x0a]

/-- The functions up to the first one without a name. -/
def shownFunctions (config : Config) : List PciDevice :=
  (functions config).takeWhile (named config) ++
    ((functions config).dropWhile (named config)).take 1

theorem readLE_two_lt (f : ℕ → UInt8) (a : ℕ) : readLE 2 f a < 2 ^ 32 :=
  Nat.lt_trans (readLE_lt 2 f a) (by decide)

/-- The line of a function. -/
theorem visits_dump (config : Config) : Visits config (dumpDevice config) fun dev =>
    (if named config dev then some (none : Option Unit) else none, shown config dev) := by
  intro dev hon
  have hbus : dev.bus < 2 ^ 32 := Nat.lt_trans hon.1 (by decide)
  have hslot : dev.slot < 2 ^ 32 := Nat.lt_trans hon.2.1 (by decide)
  have hfunc : dev.func < 2 ^ 32 := Nat.lt_trans hon.2.2 (by decide)
  have hvendor : vendor config dev < 2 ^ 32 := readLE_two_lt ..
  have hdevice : deviceId config dev < 2 ^ 32 := readLE_two_lt ..
  have hname : Prints Machine.output (do
      putsClass (classId config dev)
      putchar 0x0a
      return TurnEnd.next)
      ((if named config dev then some (none : Option Unit) else none).map TurnEnd.ofResult)
      (match pciStrings[classId config dev]? with
        | none => []
        | some name => name ++ [0x0a]) := by
    rw [putsClass]
    cases hget : pciStrings[classId config dev]? with
    | none =>
      have hnot : ¬ named config dev := by
        rw [named, decide_eq_true_iff]
        exact Nat.not_lt_of_le (List.getElem?_eq_none_iff.1 hget)
      rw [if_neg hnot]
      exact Prints.failure.bind_none
    | some name =>
      have hnamed : named config dev := by
        obtain ⟨hlt, -⟩ := List.getElem?_eq_some_iff.1 hget
        rw [named, decide_eq_true_iff]
        exact hlt
      rw [if_pos hnamed]
      exact (prints_puts name).bind ((prints_putchar 0x0a).bind (.pure _))
  have hshown : shown config dev = chars "[pci] " ++ (numeral hexDigits dev.bus ++ ([0x2e] ++
      (numeral hexDigits dev.slot ++ ([0x2e] ++ (numeral hexDigits dev.func ++ ([0x20] ++
      (numeral hexDigits (vendor config dev) ++ ([0x3a] ++
      (numeral hexDigits (deviceId config dev) ++ (chars ", " ++
      match pciStrings[classId config dev]? with
        | none => []
        | some name => name ++ [0x0a])))))))))) := by
    simp only [shown, List.append_assoc]
  simp only [hshown]
  exact (prints_deviceId hon).bind_silent <| (prints_classId hon).bind_silent <|
    (prints_puts _).bind <| (prints_hex hbus).bind <| (prints_putchar _).bind <|
    (prints_hex hslot).bind <| (prints_putchar _).bind <| (prints_hex hfunc).bind <|
    (prints_putchar _).bind <| (prints_hex hvendor).bind <| (prints_putchar _).bind <|
    (prints_hex hdevice).bind <| (prints_puts _).bind hname

theorem prints_dump (config : Config) :
    Prints Machine.output (pciDumpDevices config)
      (if (functions config).all (named config) then some () else none)
      (chars "scanning pci bus...\n" ++ (shownFunctions config).flatMap (shown config)) := by
  have hscan := prints_forFunctions (visits_dump config)
  rw [walk_print] at hscan
  refine (prints_puts _).bind ?_
  by_cases hall : (functions config).all (named config)
  · rw [if_pos hall] at hscan ⊢
    rw [← List.append_nil (List.flatMap ..)]
    exact hscan.bind (.pure ())
  · rw [if_neg hall] at hscan ⊢
    exact hscan.bind_none

/-- **The first function in the list is looked up.** -/
theorem prints_lookup (config : Config) (vendorId device : ℕ) :
    Prints Machine.output (pciLookup config vendorId device)
      (some ((functions config).find? fun dev =>
        vendorId = vendor config dev ∧ device = deviceId config dev)) [] := by
  have hvisits : Visits config (compareDevice config vendorId device) fun dev =>
      (some (if decide (vendorId = vendor config dev ∧ device = deviceId config dev) then some dev
        else none), []) := by
    intro dev hon
    refine (prints_deviceId hon).bind ?_
    by_cases heq : vendorId = vendor config dev ∧ device = deviceId config dev
    · simp only [if_pos heq, decide_eq_true heq]
      exact .pure _
    · simp only [if_neg heq, decide_eq_false heq]
      exact .pure _
  have h := prints_forFunctions hvisits
  rw [walk_find] at h
  exact h

/-- What `main` prints in front of the lines. -/
def heading (id : ℕ) : List UInt8 :=
  chars "hello, pci at thread " ++ numeral decimalDigits id ++ chars "\n" ++
    chars "scanning pci bus...\n"

/-- **What the program prints.** For every configuration space: a line for each function up to the
first one without a name, where the program ends, and whether the network card is among them. -/
theorem main_prints (config : Config) (id : UInt32) :
    Prints Machine.output (main config id.toNat)
      (if (functions config).all (named config) then some () else none)
      (heading id.toNat ++ (shownFunctions config).flatMap (shown config) ++
        if (functions config).all (named config) ∧ ∃ dev ∈ functions config,
          vendor config dev = 0x10ec ∧ deviceId config dev = 0x8139
        then chars "found a realtek 8139 network card" else []) := by
  have hdump := prints_dump config
  have hlookup := prints_lookup config 0x10ec 0x8139
  have hfound : ((functions config).find? fun dev =>
      decide (0x10ec = vendor config dev ∧ 0x8139 = deviceId config dev)).isSome = true ↔
        ∃ dev ∈ functions config, vendor config dev = 0x10ec ∧ deviceId config dev = 0x8139 := by
    rw [List.find?_isSome]
    refine exists_congr fun dev => and_congr_right fun _ => ?_
    rw [decide_eq_true_iff, eq_comm, @eq_comm _ 0x8139]
  have hsplit (l l' : List UInt8) : heading id.toNat ++ l ++ l' =
      chars "hello, pci at thread " ++ (numeral decimalDigits id.toNat ++ (chars "\n" ++
        ((chars "scanning pci bus...\n" ++ l) ++ l'))) := by
    simp only [heading, List.append_assoc]
  rw [hsplit]
  refine (prints_puts _).bind <| (prints_num id.toNat_lt).bind <| (prints_puts _).bind ?_
  by_cases hall : (functions config).all (named config)
  · rw [if_pos hall] at hdump ⊢
    refine hdump.bind ?_
    refine hlookup.bind_silent ?_
    by_cases hcard : ∃ dev ∈ functions config,
        vendor config dev = 0x10ec ∧ deviceId config dev = 0x8139
    · rw [if_pos (hfound.2 hcard), if_pos ⟨hall, hcard⟩]
      exact prints_puts _
    · rw [if_neg fun h => hcard (hfound.1 h), if_neg fun h => hcard h.2]
      exact .pure ()
  · rw [if_neg hall] at hdump ⊢
    rw [if_neg fun h => hall h.1, List.append_nil]
    exact hdump.bind_none

end C4OS.Pci
