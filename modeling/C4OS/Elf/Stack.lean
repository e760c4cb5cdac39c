import C4OS.Foundations.Bytes
import Mathlib.Data.List.Forall2
import Mathlib.Algebra.BigOperators.Group.List.Basic

/-!
# The stack of a new program

`elf_load_full` passes the arguments and the environment of a new program in the page of its stack.
It writes them through a mapping of the page in its own address space and keeps a second pointer for
the place that the program will see, `setup_stack_params`. The program finds them in `_start`.

`setup_start_roundtrip` says that `_start` gets back what was passed, for all lists of strings that
fit below the initial stack pointer. The strings and the arrays of pointers go downwards from there,
so that everything at or above a pointer stays as it is (`StrAbove`, `ListAbove`).
-/

namespace C4OS.Elf

open Foundations

/-- The number of values of a word. -/
abbrev wordSize : ℕ := 2 ^ 32

/-- `PAGE_SIZE`. -/
abbrev pageSize : ℕ := 4096

/-- `from_stack`, the page in the address space of the loader. -/
abbrev fromStack : ℕ := 0xda000000

/-- `to_stack`, the page in the address space of the program. -/
abbrev toStack : ℕ := 0xa0000000

/-- `stack_offset`. -/
abbrev stackOffset : ℕ := 0xfe0

/-- `C4RT_INIT_MAGIC`. -/
abbrev initMagic : ℕ := 0x10adab1e

/-! ## The loader -/

/-- The page of the stack, and the pointers `from` and `to`. -/
structure Cursors where
  page : ℕ → UInt8
  fromPtr : ℕ
  toPtr : ℕ

namespace Cursors

/-- Move both pointers down. -/
def down (c : Cursors) (k : ℕ) : Cursors :=
  { c with
    fromPtr := (c.fromPtr + (wordSize - k)) % wordSize
    toPtr := (c.toPtr + (wordSize - k)) % wordSize }

/-- The offset of `from` in the page when `k` bytes can be stored there. -/
def offset (c : Cursors) (k : ℕ) : Option ℕ :=
  if fromStack ≤ c.fromPtr ∧ c.fromPtr + k ≤ fromStack + pageSize then some (c.fromPtr - fromStack)
  else none

end Cursors

/-- `elf_push_arg`. -/
def elfPushArg (c : Cursors) (value : ℕ) : Option (Cursors × ℕ) := do
  let c := c.down 4
  let off ← c.offset 4
  return ({ c with page := writeLE 4 c.page off value }, c.toPtr)

/-- `elf_push_str`. -/
def elfPushStr (c : Cursors) (str : List UInt8) : Option (Cursors × ℕ) := do
  let len := str.length + 1
  let c := c.down len
  let off ← c.offset len
  return ({ c with page := writeBytes c.page off (str ++ [0]) }, c.toPtr)

/-- The first loop of `elf_copy_strlist`, with the pointers `foo`. -/
def pushStrs : Cursors → List (List UInt8) → Option (Cursors × List ℕ)
  | c, [] => some (c, [])
  | c, str :: things => do
    let (c, ptr) ← elfPushStr c str
    let (c, foo) ← pushStrs c things
    return (c, ptr :: foo)

/-- The second loop of `elf_copy_strlist`, over the pointers from the last to the first. -/
def pushArgs : Cursors → List ℕ → Option Cursors
  | c, [] => some c
  | c, ptr :: foo => do
    let (c, _) ← elfPushArg c ptr
    pushArgs c foo

/-- `elf_copy_strlist`. -/
def elfCopyStrlist (c : Cursors) (things : List (List UInt8)) : Option (Cursors × ℕ) := do
  let (c, foo) ← pushStrs c things
  let (c, _) ← elfPushArg c 0
  let c ← pushArgs c foo.reverse
  return (c, c.toPtr)

/-- The end of `setup_stack_params`, the parameters of `_start` and its return address. -/
def pushParams (c : Cursors) (magic env args nameserv ret : ℕ) : Option Cursors := do
  let (c, _) ← elfPushArg c magic
  let (c, _) ← elfPushArg c env
  let (c, _) ← elfPushArg c args
  let (c, _) ← elfPushArg c nameserv
  let (c, _) ← elfPushArg c ret
  return c

/-- `setup_stack_params`. -/
def setupStackParams (c : Cursors) (nameserver : ℕ) (argv envp : List (List UInt8)) :
    Option Cursors := do
  let (c, toArgv) ← elfCopyStrlist c argv
  let (c, toEnvp) ← elfCopyStrlist c envp
  pushParams c initMagic toEnvp toArgv nameserver 0

/-- The pointers that `elf_load_full` starts with. -/
def loadCursors (page : ℕ → UInt8) : Cursors :=
  ⟨page, fromStack + stackOffset, toStack + stackOffset⟩

/-! ## The program -/

/-- A number of the program's memory; only the page of the stack is known. -/
def loadWord (page : ℕ → UInt8) (k addr : ℕ) : Option ℕ :=
  if toStack ≤ addr ∧ addr + k ≤ toStack + pageSize then some (readLE k page (addr - toStack))
  else none

/-- The string at an address. -/
def loadStr (page : ℕ → UInt8) : ℕ → ℕ → Option (List UInt8)
  | 0, _ => none
  | fuel + 1, addr => do
    let b ← loadWord page 1 addr
    if b = 0 then return []
    else
      let str ← loadStr page fuel (addr + 1)
      return UInt8.ofNat b :: str

/-- A loop of `_start`: the strings of an array that ends with the null pointer. -/
def loadStrs (page : ℕ → UInt8) : ℕ → ℕ → Option (List (List UInt8))
  | 0, _ => none
  | fuel + 1, addr => do
    let ptr ← loadWord page 4 addr
    if ptr = 0 then return []
    else
      let str ← loadStr page pageSize ptr
      let strs ← loadStrs page fuel (addr + 4)
      return str :: strs

/-- The parameter `magic` of `_start`, the variable `global_nameserv`, and what `main` gets. -/
structure Start where
  magic : ℕ
  nameserv : ℕ
  argc : ℕ
  argv : List (List UInt8)
  envp : List (List UInt8)
  deriving DecidableEq

/-- `_start`, with the stack pointer at the return address. -/
def start (page : ℕ → UInt8) (esp : ℕ) : Option Start := do
  let nameserv ← loadWord page 4 (esp + 4)
  let args ← loadWord page 4 (esp + 8)
  let env ← loadWord page 4 (esp + 12)
  let magic ← loadWord page 4 (esp + 16)
  if magic = initMagic then
    let argv ← loadStrs page pageSize args
    let envp ← loadStrs page pageSize env
    return ⟨magic, nameserv, argv.length, argv, envp⟩
  else
    return ⟨magic, nameserv, 0, [], []⟩

/-! ## What is above a pointer -/

variable {f g : ℕ → UInt8} {p q ptr x : ℕ} {str : List UInt8} {things : List (List UInt8)}

/-- The string at an address of the program lies at or above the offset `q` of the page. -/
def StrAbove (f : ℕ → UInt8) (q ptr : ℕ) (str : List UInt8) : Prop :=
  ∃ off, ptr = toStack + off ∧ q ≤ off ∧ off + str.length < pageSize ∧ StrAt f off str

/-- The array of pointers at an address of the program, and the strings it points to, lie at or
above the offset `q` of the page. -/
inductive ListAbove (f : ℕ → UInt8) (q : ℕ) : ℕ → List (List UInt8) → Prop
  | nil {off : ℕ} (hq : q ≤ off) (hoff : off + 4 ≤ pageSize) (hnull : readLE 4 f off = 0) :
      ListAbove f q (toStack + off) []
  | cons {off ptr : ℕ} {str : List UInt8} {things : List (List UInt8)} (hq : q ≤ off)
      (hoff : off + 4 ≤ pageSize) (hptr : readLE 4 f off = ptr) (hstr : StrAbove f q ptr str)
      (h : ListAbove f q (toStack + (off + 4)) things) : ListAbove f q (toStack + off) (str :: things)

theorem StrAbove.mono (h : StrAbove f p ptr str) (hq : q ≤ p) (hfg : ∀ i, p ≤ i → g i = f i) :
    StrAbove g q ptr str := by
  obtain ⟨off, hptr, hp, hlen, hstr⟩ := h
  exact ⟨off, hptr, Nat.le_trans hq hp, hlen, hstr.congr fun i hi => hfg i (Nat.le_trans hp hi)⟩

theorem ListAbove.mono (h : ListAbove f p ptr things) (hq : q ≤ p)
    (hfg : ∀ i, p ≤ i → g i = f i) : ListAbove g q ptr things := by
  have hword {off : ℕ} (hp : p ≤ off) : readLE 4 g off = readLE 4 f off :=
    readLE_congr fun i _ => hfg (off + i) (by omega)
  induction h with
  | nil hp hoff hnull => exact .nil (Nat.le_trans hq hp) hoff ((hword hp).trans hnull)
  | cons hp hoff hptr hstr _ ih =>
    exact .cons (Nat.le_trans hq hp) hoff ((hword hp).trans hptr) (hstr.mono hq hfg) ih

/-! ## What the program reads -/

theorem loadWord_eq {k off : ℕ} (hoff : off + k ≤ pageSize) :
    loadWord f k (toStack + off) = some (readLE k f off) := by
  have hle : toStack + off + k ≤ toStack + pageSize := by omega
  rw [loadWord, if_pos ⟨Nat.le_add_right _ _, hle⟩, Nat.add_sub_cancel_left]

theorem loadStr_eq {off fuel : ℕ} (h : StrAt f off str) (hoff : off + str.length < pageSize)
    (hfuel : str.length < fuel) (hnul : ∀ b ∈ str, b ≠ 0) :
    loadStr f fuel (toStack + off) = some str := by
  induction str generalizing off fuel with
  | nil =>
    obtain ⟨fuel, rfl⟩ := Nat.exists_eq_succ_of_ne_zero (Nat.ne_zero_of_lt hfuel)
    have hzero : f off = 0 := h
    have hload : loadWord f 1 (toStack + off) = some 0 := by
      rw [loadWord_eq hoff]
      simp [readLE, hzero]
    rw [loadStr, hload]
    rfl
  | cons b str ih =>
    obtain ⟨fuel, rfl⟩ := Nat.exists_eq_succ_of_ne_zero (Nat.ne_zero_of_lt hfuel)
    obtain ⟨hb, h⟩ := h
    rw [List.length_cons] at hoff hfuel
    have hload : loadWord f 1 (toStack + off) = some b.toNat := by
      rw [loadWord_eq (by omega)]
      simp [readLE, hb]
    have hrest := ih h (by omega) (Nat.lt_of_succ_lt_succ hfuel) fun c hc =>
      hnul c (List.mem_cons_of_mem b hc)
    have hne : b.toNat ≠ 0 := fun h0 =>
      hnul b List.mem_cons_self (UInt8.toNat_inj.mp h0)
    rw [loadStr, hload, Nat.add_assoc, hrest]
    simp [hne]

/-- The program finds the strings of a list. -/
theorem ListAbove.loadStrs_eq {fuel : ℕ} (h : ListAbove f q ptr things)
    (hfuel : things.length < fuel) (hnul : ∀ str ∈ things, ∀ b ∈ str, b ≠ 0) :
    loadStrs f fuel ptr = some things := by
  induction h generalizing fuel with
  | nil hq hoff hnull =>
    obtain ⟨fuel, rfl⟩ := Nat.exists_eq_succ_of_ne_zero (Nat.ne_zero_of_lt hfuel)
    rw [loadStrs, loadWord_eq hoff, hnull]
    rfl
  | @cons off ptr str things hq hoff hptr hstr _ ih =>
    obtain ⟨fuel, rfl⟩ := Nat.exists_eq_succ_of_ne_zero (Nat.ne_zero_of_lt hfuel)
    obtain ⟨off', rfl, -, hlen, hstr⟩ := hstr
    have hload := loadStr_eq hstr hlen (by omega : str.length < pageSize)
      (hnul str List.mem_cons_self)
    have hrest := ih (Nat.lt_of_succ_lt_succ hfuel) fun s hs => hnul s (List.mem_cons_of_mem _ hs)
    rw [loadStrs, loadWord_eq hoff, hptr, Nat.add_assoc]
    simp [hload, hrest]

/-! ## What the loader writes -/

/-- The pointers at an offset of the page. -/
def cursorsAt (f : ℕ → UInt8) (p : ℕ) : Cursors := ⟨f, fromStack + p, toStack + p⟩

theorem down_cursorsAt {k : ℕ} (hk : k ≤ p) (hp : p ≤ pageSize) :
    (cursorsAt f p).down k = cursorsAt f (p - k) := by
  have hp' : p ≤ 4096 := hp
  have hfrom : (fromStack + p + (wordSize - k)) % wordSize = fromStack + (p - k) := by
    show (3657433088 + p + (4294967296 - k)) % 4294967296 = 3657433088 + (p - k)
    omega
  have hto : (toStack + p + (wordSize - k)) % wordSize = toStack + (p - k) := by
    show (2684354560 + p + (4294967296 - k)) % 4294967296 = 2684354560 + (p - k)
    omega
  rw [Cursors.down, cursorsAt, hfrom, hto]
  rfl

theorem offset_cursorsAt {k : ℕ} (hp : p + k ≤ pageSize) :
    (cursorsAt f p).offset k = some p := by
  have hle : fromStack + p + k ≤ fromStack + pageSize := by omega
  rw [Cursors.offset, cursorsAt, if_pos ⟨Nat.le_add_right _ _, hle⟩, Nat.add_sub_cancel_left]

theorem elfPushArg_cursorsAt (hk : 4 ≤ p) (hp : p ≤ pageSize) :
    elfPushArg (cursorsAt f p) x =
      some (cursorsAt (writeLE 4 f (p - 4) x) (p - 4), toStack + (p - 4)) := by
  have hfit : p - 4 + 4 ≤ pageSize := by omega
  rw [elfPushArg, down_cursorsAt hk hp]
  exact run_bind (offset_cursorsAt hfit) rfl

theorem elfPushStr_cursorsAt (hk : str.length + 1 ≤ p) (hp : p ≤ pageSize) :
    elfPushStr (cursorsAt f p) str =
      some (cursorsAt (writeBytes f (p - (str.length + 1)) (str ++ [0])) (p - (str.length + 1)),
        toStack + (p - (str.length + 1))) := by
  have hfit : p - (str.length + 1) + (str.length + 1) ≤ pageSize := by omega
  rw [elfPushStr, down_cursorsAt hk hp]
  exact run_bind (offset_cursorsAt hfit) rfl

/-- The number of bytes that the strings of a list take. -/
def strsSize (things : List (List UInt8)) : ℕ := (things.map fun str => str.length + 1).sum

/-- The strings of a list are copied below the pointer. -/
theorem pushStrs_cursorsAt (hk : strsSize things ≤ p) (hp : p ≤ pageSize) :
    ∃ g foo, pushStrs (cursorsAt f p) things = some (cursorsAt g (p - strsSize things), foo) ∧
      (∀ i, p ≤ i → g i = f i) ∧ List.Forall₂ (StrAbove g (p - strsSize things)) foo things := by
  induction things generalizing f p with
  | nil => exact ⟨f, [], rfl, fun _ _ => rfl, .nil⟩
  | cons str things ih =>
    have hsize : strsSize (str :: things) = str.length + 1 + strsSize things := by simp [strsSize]
    rw [hsize] at hk ⊢
    -- the first string is right below the pointer, the others are below it
    have hrun := elfPushStr_cursorsAt (f := f) (by omega : str.length + 1 ≤ p) hp
    obtain ⟨g, foo, hrest, hg, hfoo⟩ :=
      ih (f := writeBytes f (p - (str.length + 1)) (str ++ [0]))
        (by omega : strsSize things ≤ p - (str.length + 1)) (by omega)
    have hstr : StrAbove (writeBytes f (p - (str.length + 1)) (str ++ [0])) (p - (str.length + 1))
        (toStack + (p - (str.length + 1))) str :=
      ⟨_, rfl, Nat.le_refl _, by omega, strAt_writeBytes f _ str⟩
    rw [Nat.sub_sub] at hrest hfoo
    refine ⟨g, _, run_bind hrun (run_bind hrest rfl), fun i hi => ?_, .cons ?_ hfoo⟩
    · rw [hg i (by omega), writeBytes_of_notMem]
      simp only [List.length_append, List.length_singleton]
      omega
    · exact hstr.mono (by omega) hg

/-- A pointer to a string is pushed in front of an array. -/
theorem ListAbove.push (hk : 4 ≤ p) (hp : p ≤ pageSize) (hx : ptr < wordSize)
    (h : ListAbove f p (toStack + p) things) (hstr : StrAbove f p ptr str) :
    ListAbove (writeLE 4 f (p - 4) ptr) (p - 4) (toStack + (p - 4)) (str :: things) := by
  have hfg : ∀ i, p ≤ i → writeLE 4 f (p - 4) ptr i = f i := fun i hi =>
    writeLE_of_notMem (by omega)
  refine .cons (Nat.le_refl _) (by omega) ?_ (hstr.mono (by omega) hfg) ?_
  · rw [readLE_writeLE_self]
    exact Nat.mod_eq_of_lt hx
  · rw [Nat.sub_add_cancel hk]
    exact h.mono (by omega) hfg

theorem StrAbove.lt_wordSize (h : StrAbove f p ptr str) : ptr < wordSize := by
  obtain ⟨off, rfl, -, hlen, -⟩ := h
  have hlen' : off + str.length < 4096 := hlen
  show 2684354560 + off < 4294967296
  omega

/-- The array of pointers is written from its end on. -/
theorem pushArgs_cursorsAt {foo : List ℕ} {rest : List (List UInt8)}
    (hk : 4 * foo.length ≤ p) (hp : p ≤ pageSize) (hrest : ListAbove f p (toStack + p) rest)
    (hfoo : List.Forall₂ (StrAbove f p) foo things) :
    ∃ g, pushArgs (cursorsAt f p) foo = some (cursorsAt g (p - 4 * foo.length)) ∧
      (∀ i, p ≤ i → g i = f i) ∧
      ListAbove g (p - 4 * foo.length) (toStack + (p - 4 * foo.length)) (things.reverse ++ rest) := by
  induction foo generalizing f p things rest with
  | nil =>
    cases hfoo
    exact ⟨f, rfl, fun _ _ => rfl, hrest⟩
  | cons ptr foo ih =>
    obtain ⟨str, things, hstr, htail, rfl⟩ := List.forall₂_cons_left_iff.mp hfoo
    rw [List.length_cons] at hk ⊢
    have hrun := elfPushArg_cursorsAt (f := f) (x := ptr) (by omega : 4 ≤ p) hp
    have hfg : ∀ i, p ≤ i → writeLE 4 f (p - 4) ptr i = f i := fun i hi =>
      writeLE_of_notMem (by omega)
    have htail' : List.Forall₂ (StrAbove (writeLE 4 f (p - 4) ptr) (p - 4)) foo things :=
      htail.imp fun _ _ h => h.mono (by omega) hfg
    obtain ⟨g, hargs, hg, hlist⟩ := ih (p := p - 4) (by omega) (by omega)
      (hrest.push (by omega) hp hstr.lt_wordSize hstr) htail'
    rw [Nat.sub_sub, Nat.add_comm, ← Nat.mul_succ] at hargs hlist
    refine ⟨g, run_bind hrun hargs, fun i hi => ?_, ?_⟩
    · rw [hg i (by omega), hfg i hi]
    · rwa [List.reverse_cons, List.append_assoc]

/-- The number of bytes that a list takes, with its array of pointers. -/
def strlistSize (things : List (List UInt8)) : ℕ := strsSize things + 4 * (things.length + 1)

/-- `elf_copy_strlist` puts a list below the pointer. -/
theorem elfCopyStrlist_cursorsAt (f : ℕ → UInt8) (hk : strlistSize things ≤ p) (hp : p ≤ pageSize) :
    ∃ g, elfCopyStrlist (cursorsAt f p) things =
        some (cursorsAt g (p - strlistSize things), toStack + (p - strlistSize things)) ∧
      (∀ i, p ≤ i → g i = f i) ∧
      ListAbove g (p - strlistSize things) (toStack + (p - strlistSize things)) things := by
  rw [strlistSize, Nat.mul_succ] at hk ⊢
  obtain ⟨g₁, foo, hstrs, hg₁, hfoo⟩ :=
    pushStrs_cursorsAt (f := f) (by omega : strsSize things ≤ p) hp
  -- the null pointer at the end of the array
  obtain ⟨p₁, hp₁⟩ : ∃ p₁, p₁ = p - strsSize things - 4 := ⟨_, rfl⟩
  have hnull := elfPushArg_cursorsAt (f := g₁) (x := 0)
    (by omega : 4 ≤ p - strsSize things) (by omega)
  rw [← hp₁] at hnull
  have hg₂ : ∀ i, p - strsSize things ≤ i → writeLE 4 g₁ p₁ 0 i = g₁ i := fun i hi =>
    writeLE_of_notMem (by omega)
  have hend : ListAbove (writeLE 4 g₁ p₁ 0) p₁ (toStack + p₁) [] :=
    .nil (Nat.le_refl _) (by omega) readLE_writeLE_self
  -- the pointers, from the last one on
  have hfoo' : List.Forall₂ (StrAbove (writeLE 4 g₁ p₁ 0) p₁) foo.reverse things.reverse :=
    List.forall₂_reverse_iff.mpr (hfoo.imp fun _ _ h => h.mono (by omega) hg₂)
  have hlen : foo.reverse.length = things.length := by
    rw [List.length_reverse, hfoo.length_eq]
  obtain ⟨g, hargs, hg, hlist⟩ := pushArgs_cursorsAt (by omega) (by omega) hend hfoo'
  have hsub : p₁ - 4 * things.length = p - (strsSize things + (4 * things.length + 4)) := by omega
  rw [hlen, hsub] at hargs hlist
  rw [List.reverse_reverse, List.append_nil] at hlist
  refine ⟨g, run_bind hstrs (run_bind hnull (run_bind hargs rfl)), fun i hi => ?_, hlist⟩
  rw [hg i (by omega), hg₂ i (by omega), hg₁ i hi]

/-! ## The round trip -/

/-- The number of bytes below the initial stack pointer that are used. -/
def encodedSize (argv envp : List (List UInt8)) : ℕ := strlistSize argv + strlistSize envp + 20

theorem pushParams_cursorsAt (ret : ℕ) {magic env args nameserv : ℕ} (hk : 20 ≤ p) (hp : p ≤ pageSize)
    (hmagic : magic < wordSize) (henv : env < wordSize) (hargs : args < wordSize)
    (hserv : nameserv < wordSize) :
    ∃ g, pushParams (cursorsAt f p) magic env args nameserv ret = some (cursorsAt g (p - 20)) ∧
      (∀ i, p ≤ i → g i = f i) ∧ readLE 4 g (p - 20 + 4) = nameserv ∧
      readLE 4 g (p - 20 + 8) = args ∧ readLE 4 g (p - 20 + 12) = env ∧
      readLE 4 g (p - 20 + 16) = magic := by
  obtain ⟨q, rfl⟩ := Nat.exists_eq_add_of_le' hk
  rw [Nat.add_sub_cancel]
  have h₁ := elfPushArg_cursorsAt (f := f) (x := magic) (p := q + 16 + 4) (by omega) hp
  have h₂ := elfPushArg_cursorsAt (f := writeLE 4 f (q + 16) magic) (x := env) (p := q + 12 + 4)
    (by omega) (by omega)
  have h₃ := elfPushArg_cursorsAt (f := writeLE 4 (writeLE 4 f (q + 16) magic) (q + 12) env)
    (x := args) (p := q + 8 + 4) (by omega) (by omega)
  have h₄ := elfPushArg_cursorsAt
    (f := writeLE 4 (writeLE 4 (writeLE 4 f (q + 16) magic) (q + 12) env) (q + 8) args)
    (x := nameserv) (p := q + 4 + 4) (by omega) (by omega)
  have h₅ := elfPushArg_cursorsAt (f := writeLE 4
    (writeLE 4 (writeLE 4 (writeLE 4 f (q + 16) magic) (q + 12) env) (q + 8) args) (q + 4) nameserv)
    (x := ret) (p := q + 4) (by omega) (by omega)
  refine ⟨_, run_bind h₁ <| run_bind h₂ <| run_bind h₃ <| run_bind h₄ <| run_bind h₅ rfl, ?_, ?_, ?_,
    ?_, ?_⟩
  · intro i hi
    iterate 5 rw [writeLE_of_notMem (by omega)]
  · rw [readLE_writeLE_of_disjoint (by omega), readLE_writeLE_self]
    exact Nat.mod_eq_of_lt hserv
  · iterate 2 rw [readLE_writeLE_of_disjoint (by omega)]
    rw [readLE_writeLE_self]
    exact Nat.mod_eq_of_lt hargs
  · iterate 3 rw [readLE_writeLE_of_disjoint (by omega)]
    rw [readLE_writeLE_self]
    exact Nat.mod_eq_of_lt henv
  · iterate 4 rw [readLE_writeLE_of_disjoint (by omega)]
    rw [readLE_writeLE_self]
    exact Nat.mod_eq_of_lt hmagic

theorem length_le_strlistSize (things : List (List UInt8)) :
    4 * things.length < strlistSize things := by
  rw [strlistSize]
  omega

/-- **The arguments of a program round-trip.** For all lists of strings without zero bytes that fit
below the initial stack pointer, and whatever is in the page before, `setup_stack_params` returns,
and `_start` gets the magic number, the name server, and the strings, with `argc` the number of the
arguments. -/
theorem setup_start_roundtrip (page : ℕ → UInt8) {nameserver : ℕ} {argv envp : List (List UInt8)}
    (hserver : nameserver < wordSize) (hargv : ∀ str ∈ argv, ∀ b ∈ str, b ≠ 0)
    (henvp : ∀ str ∈ envp, ∀ b ∈ str, b ≠ 0) (hfit : encodedSize argv envp ≤ stackOffset) :
    ∃ c, setupStackParams (loadCursors page) nameserver argv envp = some c ∧
      start c.page c.toPtr = some ⟨initMagic, nameserver, argv.length, argv, envp⟩ := by
  have hfit' : strlistSize argv + strlistSize envp + 20 ≤ 4064 := hfit
  obtain ⟨g₁, hrun₁, hg₁, hl₁⟩ := elfCopyStrlist_cursorsAt page
    (show strlistSize argv ≤ stackOffset by show _ ≤ 4064; omega) (by decide)
  obtain ⟨p, hp⟩ : ∃ p, p = stackOffset - strlistSize argv := ⟨_, rfl⟩
  rw [← hp] at hrun₁ hl₁
  have hp' : p = 4064 - strlistSize argv := hp
  obtain ⟨g₂, hrun₂, hg₂, hl₂⟩ := elfCopyStrlist_cursorsAt g₁
    (show strlistSize envp ≤ p by omega) (by show _ ≤ 4096; omega)
  obtain ⟨q, hq⟩ : ∃ q, q = p - strlistSize envp := ⟨_, rfl⟩
  rw [← hq] at hrun₂ hl₂
  have haddr {off : ℕ} (hoff : off ≤ stackOffset) : toStack + off < wordSize := by
    have hoff' : off ≤ 4064 := hoff
    show 2684354560 + off < 4294967296
    omega
  obtain ⟨g, hrun, hg, hserv, hargs, henv, hmagic⟩ := pushParams_cursorsAt 0 (f := g₂) (p := q)
    (by omega) (by show _ ≤ 4096; omega) (by decide : initMagic < wordSize)
    (haddr (by show q ≤ 4064; omega)) (haddr (by show p ≤ 4064; omega)) hserver
  refine ⟨_, run_bind hrun₁ (run_bind hrun₂ hrun), ?_⟩
  -- what `_start` reads
  obtain ⟨r, rfl⟩ := Nat.exists_eq_add_of_le' (by omega : 20 ≤ q)
  rw [Nat.add_sub_cancel] at hserv hargs henv hmagic ⊢
  have hr : r + 20 ≤ 4064 := by omega
  have hword {off : ℕ} (hoff : off ≤ 16) :
      loadWord g 4 (toStack + r + off) = some (readLE 4 g (r + off)) := by
    rw [Nat.add_assoc]
    exact loadWord_eq (by show r + off + 4 ≤ 4096; omega)
  have hlen₁ : argv.length < pageSize := by
    have := length_le_strlistSize argv
    show _ < 4096
    omega
  have hlen₂ : envp.length < pageSize := by
    have := length_le_strlistSize envp
    show _ < 4096
    omega
  have habove₁ : ListAbove g r (toStack + p) argv :=
    hl₁.mono (by omega) fun i hi => by rw [hg i (by omega), hg₂ i hi]
  have habove₂ : ListAbove g r (toStack + (r + 20)) envp := hl₂.mono (by omega) hg
  have h₁ : loadWord g 4 (toStack + r + 4) = some nameserver := by rw [hword (by decide), hserv]
  have h₂ : loadWord g 4 (toStack + r + 8) = some (toStack + p) := by rw [hword (by decide), hargs]
  have h₃ : loadWord g 4 (toStack + r + 12) = some (toStack + (r + 20)) := by
    rw [hword (by decide), henv]
  have h₄ : loadWord g 4 (toStack + r + 16) = some initMagic := by rw [hword (by decide), hmagic]
  refine run_bind h₁ <| run_bind h₂ <| run_bind h₃ <| run_bind h₄ ?_
  rw [if_pos rfl]
  exact run_bind (habove₁.loadStrs_eq hlen₁ hargv) <| run_bind (habove₂.loadStrs_eq hlen₂ henvp) rfl

/-- Two arguments, an empty one among them, and one variable. -/
theorem setup_start_roundtrip_two : ∃ c,
    setupStackParams (loadCursors fun _ => 0xff) 3 [[0x6c, 0x73], []] [[0x41, 0x3d, 0x31]] = some c ∧
      start c.page c.toPtr =
        some ⟨initMagic, 3, 2, [[0x6c, 0x73], []], [[0x41, 0x3d, 0x31]]⟩ :=
  setup_start_roundtrip _ (by decide) (by decide +kernel) (by decide +kernel) (by decide)

end C4OS.Elf
