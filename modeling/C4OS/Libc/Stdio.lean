import C4OS.Elf.Spawn
import C4OS.Libc.Strings

/-!
# Reading lines

`fgetc` and `fgets` of `stdio.c`, over a connection of any kind. What `fgets` does to the characters
that are left is `readLine`: it reads a character ahead before it looks at the limit, so that the
character behind a full buffer is gone. `fgets_iff` says when a file is read without loss by calls
with any sizes: each line, with its newline, has to fit into the buffer of the call that comes to
it. The connections may be those of `Ext2.fread` (`streams_ext2`).
-/

namespace C4OS.Libc

/-- The field `status` of a `FILE`. -/
inductive FileStatus
  | prettyGood
  | closed
  | endOfFile
  | error
  deriving DecidableEq

/-- A `FILE` with its connection. -/
structure File (σ : Type) where
  conn : σ
  status : FileStatus

/-- `EOF`. -/
def eof : ℤ := -1

/-- `EBADF`. -/
def ebadf : ℤ := 1

/-- The character `'\n'`. -/
def newline : UInt8 := 0x0a

/-- An `int` that is stored in a `char`. -/
def toChar (z : ℤ) : UInt8 := (Int8.ofInt z).toUInt8

@[simp] theorem toChar_char (c : UInt8) : toChar (char c) = c := by
  rw [toChar, char, Int8.ofInt_toInt]
  rfl

variable {σ : Type}

/-- `feof`. -/
def feof (fp : File σ) : Bool := fp.status = .endOfFile

section

variable (fread : σ → ℕ → ℕ → Option (σ × List UInt8))

/-- `fgetc`. -/
def fgetc (stream : File σ) : Option (File σ × ℤ) :=
  if stream.status ≠ .prettyGood then
    some (stream, -ebadf)
  else do
    let (conn, bytes) ← fread stream.conn 1 1
    match bytes with
    | c :: _ => return ({ stream with conn := conn }, char c)
    | [] => return ({ conn := conn, status := .endOfFile }, eof)

/-- The loop of `fgets`, with the room that is left in the buffer; the result are the characters
that are stored from there on. -/
def fgetsLoop : ℕ → File σ → UInt8 → Option (File σ × List UInt8)
  | 0, stream, _ => some (stream, [])
  | room + 1, stream, c =>
    if feof stream then some (stream, [])
    else if c = newline then some (stream, [c])
    else do
      let (stream, next) ← fgetc fread stream
      let (stream, s) ← fgetsLoop room stream (toChar next)
      return (stream, c :: s)

/-- `fgets`: the characters in the buffer, with the terminator. -/
def fgets (size : ℤ) (stream : File σ) : Option (File σ × Chars) := do
  let (stream, c) ← fgetc fread stream
  let (stream, s) ← fgetsLoop fread ((size - 1) % 2 ^ 32).toNat stream (toChar c)
  return (stream, s ++ [0])

/-- The buffers after calls of `fgets` one after the other, each with its size. -/
def fgetsCalls : ℕ → (ℕ → ℤ) → File σ → Option (List Chars)
  | 0, _, _ => some []
  | n + 1, sizes, stream => do
    let (stream, s) ← fgets fread (sizes 0) stream
    let rest ← fgetsCalls n (fun i => sizes (i + 1)) stream
    return s :: rest

end

/-- The string in a buffer. -/
def string (s : Chars) : List UInt8 := s.takeWhile (· ≠ 0)

/-- The calls read the contents of a file line by line: no string is longer than its buffer allows
or goes on behind a newline, and up to the first empty one they are the contents. -/
structure LinesRead (fread : σ → ℕ → ℕ → Option (σ × List UInt8)) (sizes : ℕ → ℤ) (fp : File σ)
    (content : List UInt8) : Prop where
  bounded : ∀ n, ∃ ss, fgetsCalls fread n sizes fp = some ss ∧ ss.length = n ∧
    ∀ i s, ss[i]? = some s → (string s).length ≤ sizes i - 1 ∧
      ∀ p q, string s = p ++ newline :: q → q = []
  whole : ∃ n ss s, fgetsCalls fread (n + 1) sizes fp = some (ss ++ [s]) ∧ string s = [] ∧
    (∀ s ∈ ss, string s ≠ []) ∧ (ss.map string).flatten = content

/-- A connection is at some characters: it returns them one by one, and nothing at their end. -/
structure Streams (fread : σ → ℕ → ℕ → Option (σ × List UInt8)) (holds : σ → List UInt8 → Prop) :
    Prop where
  next : ∀ {conn c l}, holds conn (c :: l) →
    ∃ conn', fread conn 1 1 = some (conn', [c]) ∧ holds conn' l
  last : ∀ {conn}, holds conn [] → ∃ conn', fread conn 1 1 = some (conn', [])

/-- The lines of a file, each with its newline. -/
def fileLines : List UInt8 → List (List UInt8)
  | [] => []
  | c :: l =>
    if c = newline then [c] :: fileLines l
    else match fileLines l with
      | [] => [[c]]
      | line :: lines => (c :: line) :: lines

/-- Each line fits into the buffer that it is read into, when one is read after the other. -/
def LinesFit (sizes : ℕ → ℤ) (content : List UInt8) : Prop :=
  ∀ k line, (fileLines content)[k]? = some line → line.length ≤ sizes k - 1

/-! ## One call -/

/-- What a call of `fgets` with room for `m` characters returns of what is left, and what it
leaves. -/
def readLine : ℕ → List UInt8 → List UInt8 × List UInt8
  | _, [] => ([], [])
  -- the character that was read ahead is lost
  | 0, _ :: l => ([], l)
  | m + 1, c :: l =>
    if c = newline then ([c], l)
    else (c :: (readLine m l).1, (readLine m l).2)

variable {fread : σ → ℕ → ℕ → Option (σ × List UInt8)} {holds : σ → List UInt8 → Prop}
  {fp : File σ} {sizes : ℕ → ℤ} {c : UInt8} {l content : List UInt8} {m n : ℕ}

@[simp] theorem readLine_nil (m : ℕ) : readLine m [] = ([], []) := by
  cases m <;> rfl

/-- What is left of a file: some characters, or nothing once its end was seen. -/
def File.At (holds : σ → List UInt8 → Prop) (fp : File σ) (l : List UInt8) : Prop :=
  (fp.status = .prettyGood ∧ holds fp.conn l) ∨ (fp.status = .endOfFile ∧ l = [])

theorem fgetc_cons (hs : Streams fread holds) (h : fp.At holds (c :: l)) :
    ∃ fp', fgetc fread fp = some (fp', char c) ∧ fp'.status = .prettyGood ∧ holds fp'.conn l := by
  obtain ⟨hgood, hat⟩ | ⟨-, hnil⟩ := h
  · obtain ⟨conn', hread, hat'⟩ := hs.next hat
    refine ⟨{ fp with conn := conn' }, ?_, hgood, hat'⟩
    rw [fgetc, if_neg (not_not.2 hgood), hread]
    rfl
  · cases hnil

theorem fgetc_nil (hs : Streams fread holds) (h : fp.At holds []) :
    ∃ fp' z, fgetc fread fp = some (fp', z) ∧ fp'.status = .endOfFile := by
  obtain ⟨hgood, hat⟩ | ⟨hend, -⟩ := h
  · obtain ⟨conn', hread⟩ := hs.last hat
    refine ⟨{ conn := conn', status := .endOfFile }, eof, ?_, rfl⟩
    rw [fgetc, if_neg (not_not.2 hgood), hread]
    rfl
  · refine ⟨fp, -ebadf, if_pos ?_, hend⟩
    rw [hend]
    decide

theorem fgetsLoop_end (h : fp.status = .endOfFile) (m : ℕ) (c : UInt8) :
    fgetsLoop fread m fp c = some (fp, []) := by
  cases m with
  | zero => rfl
  | succ m => exact if_pos (decide_eq_true h)

/-- The loop, after the character `c` was read. -/
theorem fgetsLoop_eq (hs : Streams fread holds) (hgood : fp.status = .prettyGood)
    (hat : holds fp.conn l) : ∃ fp', fgetsLoop fread m fp c = some (fp', (readLine m (c :: l)).1) ∧
      fp'.At holds (readLine m (c :: l)).2 := by
  induction m generalizing fp c l with
  | zero => exact ⟨fp, rfl, .inl ⟨hgood, hat⟩⟩
  | succ m ih =>
    have hfeof : ¬ feof fp = true := by
      rw [feof, hgood]
      decide
    rw [fgetsLoop, if_neg hfeof, readLine]
    split_ifs with hnewline
    · exact ⟨fp, rfl, .inl ⟨hgood, hat⟩⟩
    · cases l with
      | nil =>
        obtain ⟨fp', z, hget, hend⟩ := fgetc_nil hs (.inl ⟨hgood, hat⟩)
        refine ⟨fp', ?_, .inr ⟨hend, by rw [readLine_nil]⟩⟩
        rw [hget, readLine_nil]
        simp only [Option.bind_eq_bind, Option.bind_some, fgetsLoop_end hend]
        rfl
      | cons b l =>
        obtain ⟨fp₁, hget, hgood₁, hat₁⟩ := fgetc_cons hs (.inl ⟨hgood, hat⟩)
        obtain ⟨fp', hloop, hat'⟩ := ih hgood₁ hat₁ (c := b)
        refine ⟨fp', ?_, hat'⟩
        rw [hget]
        simp only [Option.bind_eq_bind, Option.bind_some, toChar_char, hloop]
        rfl

/-- **What a call of `fgets` returns and leaves.** -/
theorem fgets_eq (hs : Streams fread holds) (h : fp.At holds l) {size : ℤ}
    (hsize : 2 ≤ size ∧ size < 2 ^ 31) :
    ∃ fp', fgets fread size fp = some (fp', (readLine (size - 1).toNat l).1 ++ [0]) ∧
      fp'.At holds (readLine (size - 1).toNat l).2 := by
  have hmod : (size - 1) % 2 ^ 32 = size - 1 := Int.emod_eq_of_lt (by omega) (by omega)
  rw [fgets, hmod]
  cases l with
  | nil =>
    obtain ⟨fp', z, hget, hend⟩ := fgetc_nil hs h
    refine ⟨fp', ?_, .inr ⟨hend, by rw [readLine_nil]⟩⟩
    rw [hget, readLine_nil]
    simp only [Option.bind_eq_bind, Option.bind_some, fgetsLoop_end hend]
    rfl
  | cons c l =>
    obtain ⟨fp₁, hget, hgood, hat⟩ := fgetc_cons hs h
    obtain ⟨fp', hloop, hat'⟩ := fgetsLoop_eq hs hgood hat (c := c) (m := (size - 1).toNat)
    refine ⟨fp', ?_, hat'⟩
    rw [hget]
    simp only [Option.bind_eq_bind, Option.bind_some, toChar_char, hloop]
    rfl

/-! ## What is lost -/

theorem length_readLine_le (m : ℕ) (l : List UInt8) : (readLine m l).1.length ≤ m := by
  induction m generalizing l with
  | zero => cases l <;> exact Nat.le_refl 0
  | succ m ih =>
    cases l with
    | nil => exact Nat.zero_le _
    | cons c l =>
      rw [readLine]
      split_ifs
      · exact Nat.succ_le_succ (Nat.zero_le m)
      · exact Nat.succ_le_succ (ih l)

/-- Only the last character of a string is a newline. -/
theorem readLine_newline {p q : List UInt8} (h : (readLine m l).1 = p ++ newline :: q) :
    q = [] := by
  induction m generalizing l p with
  | zero => cases l <;> cases p <;> cases h
  | succ m ih =>
    cases l with
    | nil => cases p <;> cases h
    | cons c l =>
      rw [readLine] at h
      split_ifs at h with hnewline
      · have hlen := congrArg List.length h
        simp only [List.length_append, List.length_cons, List.length_nil] at hlen
        exact List.length_eq_zero_iff.1 (by omega)
      · cases p with
        | nil => exact absurd (List.cons.inj h).1 hnewline
        | cons b p => exact ih (List.cons.inj h).2

theorem noNul_readLine (h : NoNul l) : NoNul (readLine m l).1 ∧ NoNul (readLine m l).2 := by
  induction m generalizing l with
  | zero =>
    cases l with
    | nil => exact ⟨noNul_nil, noNul_nil⟩
    | cons c l => exact ⟨noNul_nil, (noNul_cons.1 h).2⟩
  | succ m ih =>
    cases l with
    | nil => exact ⟨noNul_nil, noNul_nil⟩
    | cons c l =>
      obtain ⟨hc, hl⟩ := noNul_cons.1 h
      rw [readLine]
      split_ifs
      · exact ⟨noNul_cons.2 ⟨hc, noNul_nil⟩, hl⟩
      · exact ⟨noNul_cons.2 ⟨hc, (ih hl).1⟩, (ih hl).2⟩

/-- **A line is read as a whole when it fits**, and a character is lost when it does not. -/
theorem readLine_line (h : l ≠ []) : ∃ line rest, fileLines l = line :: fileLines rest ∧
    l = line ++ rest ∧ line ≠ [] ∧ ∀ m, (line.length ≤ m → readLine m l = (line, rest)) ∧
      (m < line.length → (readLine m l).1.length + (readLine m l).2.length < l.length) := by
  induction l with
  | nil => exact absurd rfl h
  | cons c l ih =>
    by_cases hc : c = newline
    · refine ⟨[c], l, if_pos hc, rfl, List.cons_ne_nil c [], fun m => ?_⟩
      cases m with
      | zero => exact ⟨fun hle => absurd hle (by simp), fun _ => by simp [readLine]⟩
      | succ m => exact ⟨fun _ => if_pos hc, fun hlt => absurd hlt (by simp)⟩
    · have hread : ∀ m, readLine (m + 1) (c :: l) =
          (c :: (readLine m l).1, (readLine m l).2) := fun m => if_neg hc
      by_cases hl : l = []
      · subst hl
        refine ⟨[c], [], if_neg hc, rfl, List.cons_ne_nil c [], fun m => ?_⟩
        cases m with
        | zero => exact ⟨fun hle => absurd hle (by simp), fun _ => by simp [readLine]⟩
        | succ m =>
          exact ⟨fun _ => by rw [hread, readLine_nil], fun hlt => absurd hlt (by simp)⟩
      · obtain ⟨line, rest, hlines, happ, -, hm⟩ := ih hl
        refine ⟨c :: line, rest, ?_, by rw [happ, List.cons_append], List.cons_ne_nil c line,
          fun m => ?_⟩
        · rw [fileLines, if_neg hc, hlines]
        · cases m with
          | zero => exact ⟨fun hle => absurd hle (by simp), fun _ => by simp [readLine]⟩
          | succ m =>
            rw [hread, List.length_cons, List.length_cons]
            constructor
            · intro hle
              rw [(hm m).1 (Nat.le_of_succ_le_succ hle)]
            · intro hlt
              have := (hm m).2 (Nat.lt_of_succ_lt_succ hlt)
              simp only [List.length_cons]
              omega

theorem readLine_length_le (m : ℕ) (l : List UInt8) :
    (readLine m l).1.length + (readLine m l).2.length ≤ l.length := by
  by_cases hl : l = []
  · rw [hl, readLine_nil]
    rfl
  · obtain ⟨line, rest, -, happ, -, hm⟩ := readLine_line hl
    by_cases hle : line.length ≤ m
    · rw [(hm m).1 hle, happ, List.length_append]
    · exact Nat.le_of_lt ((hm m).2 (Nat.lt_of_not_le hle))

theorem readLine_ne_nil (h : l ≠ []) (hm : 0 < m) : (readLine m l).1 ≠ [] := by
  obtain ⟨m, rfl⟩ := Nat.exists_eq_succ_of_ne_zero hm.ne'
  cases l with
  | nil => exact absurd rfl h
  | cons c l =>
    rw [readLine]
    split_ifs <;> exact List.cons_ne_nil _ _

/-! ## Sequences of calls -/

/-- The strings that calls with these sizes return. -/
def readLines : ℕ → (ℕ → ℤ) → List UInt8 → List (List UInt8)
  | 0, _, _ => []
  | n + 1, sizes, l =>
    (readLine (sizes 0 - 1).toNat l).1 ::
      readLines n (fun i => sizes (i + 1)) (readLine (sizes 0 - 1).toNat l).2

theorem length_readLines (n : ℕ) (sizes : ℕ → ℤ) (l : List UInt8) :
    (readLines n sizes l).length = n := by
  induction n generalizing sizes l with
  | zero => rfl
  | succ n ih => rw [readLines, List.length_cons, ih]

theorem fgetsCalls_eq (hs : Streams fread holds) (h : fp.At holds l)
    (hsizes : ∀ i, 2 ≤ sizes i ∧ sizes i < 2 ^ 31) :
    fgetsCalls fread n sizes fp = some ((readLines n sizes l).map (· ++ [0])) := by
  induction n generalizing sizes fp l with
  | zero => rfl
  | succ n ih =>
    obtain ⟨fp', hcall, hat⟩ := fgets_eq hs h (hsizes 0)
    rw [fgetsCalls, hcall]
    simp only [Option.bind_eq_bind, Option.bind_some, ih hat fun i => hsizes (i + 1)]
    rfl

theorem string_append (h : NoNul l) : string (l ++ [0]) = l := by
  have hall : ∀ c ∈ l, decide (c ≠ 0) = true := fun c hc => decide_eq_true (h c hc)
  rw [string, List.takeWhile_append_of_pos hall, List.takeWhile_cons_of_neg (by simp),
    List.append_nil]

theorem noNul_readLines (h : NoNul l) (n : ℕ) (sizes : ℕ → ℤ) :
    ∀ s ∈ readLines n sizes l, NoNul s := by
  induction n generalizing sizes l with
  | zero => exact fun s hs => absurd hs List.not_mem_nil
  | succ n ih =>
    rw [readLines]
    exact List.forall_mem_cons.2 ⟨(noNul_readLine h).1, ih (noNul_readLine h).2 _⟩

theorem map_string {ss : List (List UInt8)} (h : ∀ s ∈ ss, NoNul s) :
    (ss.map (· ++ [0])).map string = ss := by
  rw [List.map_map]
  conv_rhs => rw [← List.map_id ss]
  exact List.map_congr_left fun s hs => string_append (h s hs)

/-- No string is longer than its buffer allows, or goes on behind a newline. -/
theorem readLines_bounded (hsizes : ∀ i, 2 ≤ sizes i ∧ sizes i < 2 ^ 31) {i : ℕ} {s : List UInt8}
    (h : (readLines n sizes l)[i]? = some s) :
    s.length ≤ sizes i - 1 ∧ ∀ p q, s = p ++ newline :: q → q = [] := by
  induction n generalizing sizes l i with
  | zero => cases h
  | succ n ih =>
    cases i with
    | zero =>
      obtain rfl := Option.some.inj h
      have hlen := length_readLine_le (sizes 0 - 1).toNat l
      have htwo := (hsizes 0).1
      exact ⟨by omega, fun p q => readLine_newline⟩
    | succ i => exact ih (fun i => hsizes (i + 1)) h

/-- The strings up to the first empty one are the contents. -/
def Recovered (sizes : ℕ → ℤ) (l : List UInt8) : Prop :=
  ∃ ss, readLines (ss.length + 1) sizes l = ss ++ [[]] ∧ (∀ s ∈ ss, s ≠ []) ∧ ss.flatten = l

theorem length_flatten_le (n : ℕ) (sizes : ℕ → ℤ) (l : List UInt8) :
    (readLines n sizes l).flatten.length ≤ l.length := by
  induction n generalizing sizes l with
  | zero => exact Nat.zero_le _
  | succ n ih =>
    rw [readLines, List.flatten_cons, List.length_append]
    have htail := ih (fun i => sizes (i + 1)) (readLine (sizes 0 - 1).toNat l).2
    have hhead := readLine_length_le (sizes 0 - 1).toNat l
    omega

/-- After a call that returns something, the later calls have to return the rest. -/
theorem recovered_iff_next (h : (readLine (sizes 0 - 1).toNat l).1 ≠ []) :
    Recovered sizes l ↔ ∃ ss, readLines (ss.length + 1) (fun i => sizes (i + 1))
        (readLine (sizes 0 - 1).toNat l).2 = ss ++ [[]] ∧ (∀ s ∈ ss, s ≠ []) ∧
      (readLine (sizes 0 - 1).toNat l).1 ++ ss.flatten = l := by
  constructor
  · rintro ⟨ss, hrun, hne, hflat⟩
    cases ss with
    | nil => exact absurd (List.cons.inj hrun).1 h
    | cons s ss =>
      obtain ⟨rfl, hrest⟩ := List.cons.inj hrun
      exact ⟨ss, hrest, (List.forall_mem_cons.1 hne).2, hflat⟩
  · rintro ⟨ss, hrest, hne, hflat⟩
    exact ⟨_ :: ss, congrArg (List.cons _) hrest, List.forall_mem_cons.2 ⟨h, hne⟩, hflat⟩

/-- The first line fits, and the others do for the later calls. -/
theorem linesFit_cons {line rest : List UInt8} (h : fileLines l = line :: fileLines rest) :
    LinesFit sizes l ↔ line.length ≤ sizes 0 - 1 ∧ LinesFit (fun i => sizes (i + 1)) rest := by
  rw [LinesFit, h]
  constructor
  · intro hfit
    exact ⟨hfit 0 line rfl, fun k => hfit (k + 1)⟩
  · rintro ⟨hfirst, hrest⟩ k line' hk
    cases k with
    | zero => exact Option.some.inj hk ▸ hfirst
    | succ k => exact hrest k line' hk

/-- **Nothing is lost just when each line fits.** -/
theorem recovered_iff (hsizes : ∀ i, 2 ≤ sizes i ∧ sizes i < 2 ^ 31) :
    Recovered sizes l ↔ LinesFit sizes l := by
  induction hn : l.length using Nat.strong_induction_on generalizing l sizes with
  | _ n ih =>
    by_cases hl : l = []
    · subst hl
      refine iff_of_true ⟨[], by simp [readLines], by simp, rfl⟩ ?_
      intro k line h
      cases h
    · obtain ⟨line, rest, hlines, happ, hline, hm⟩ := readLine_line hl
      have htwo := (hsizes 0).1
      rw [recovered_iff_next (readLine_ne_nil hl (by omega)), linesFit_cons hlines]
      by_cases hfit : line.length ≤ (sizes 0 - 1).toNat
      · -- the line is read, and the calls go on behind it
        have hlt : rest.length < n := by
          have := List.length_pos_iff.2 hline
          rw [← hn, happ, List.length_append]
          omega
        rw [(hm _).1 hfit, and_iff_right (by omega), ← ih _ hlt (fun i => hsizes (i + 1)) rfl]
        simp only [Recovered, happ, List.append_cancel_left_eq]
      · refine iff_of_false ?_ fun h => hfit (by omega)
        rintro ⟨ss, hrun, -, hflat⟩
        have hlost := (hm _).2 (Nat.lt_of_not_le hfit)
        have hle := length_flatten_le (ss.length + 1) (fun i => sizes (i + 1))
          (readLine (sizes 0 - 1).toNat l).2
        rw [hrun, List.flatten_append, List.flatten_singleton, List.append_nil] at hle
        have hlen := congrArg List.length hflat
        rw [List.length_append] at hlen
        omega

/-- The calls return what `readLine` does. -/
theorem linesRead_iff_recovered (hs : Streams fread holds) {conn : σ} (hat : holds conn content)
    (hnul : NoNul content) (hsizes : ∀ i, 2 ≤ sizes i ∧ sizes i < 2 ^ 31) :
    LinesRead fread sizes ⟨conn, .prettyGood⟩ content ↔ Recovered sizes content := by
  have hcalls : ∀ n, fgetsCalls fread n sizes ⟨conn, .prettyGood⟩ =
      some ((readLines n sizes content).map (· ++ [0])) := fun n =>
    fgetsCalls_eq hs (.inl ⟨rfl, hat⟩) hsizes
  constructor
  · rintro ⟨-, n, ss, s, hrun, hend, hne, hflat⟩
    have hss := Option.some.inj ((hcalls (n + 1)).symm.trans hrun)
    have hstrings := congrArg (List.map string) hss
    rw [map_string (noNul_readLines hnul _ _), List.map_append, List.map_singleton,
      hend] at hstrings
    have hlen := congrArg List.length hstrings
    rw [length_readLines, List.length_append, List.length_singleton] at hlen
    exact ⟨ss.map string, hlen ▸ hstrings, List.forall_mem_map.2 hne, hflat⟩
  · rintro ⟨ss, hrun, hne, hflat⟩
    have hss : ∀ s ∈ ss, NoNul s := by
      intro s hs
      apply noNul_readLines hnul (ss.length + 1) sizes
      rw [hrun]
      exact List.mem_append_left _ hs
    refine ⟨fun n => ⟨_, hcalls n, ?_, fun i s hi => ?_⟩, ss.length, ss.map (· ++ [0]), [0], ?_,
      rfl, fun s hs => ?_, ?_⟩
    · rw [List.length_map, length_readLines]
    · have hi' := congrArg (Option.map string) hi
      rw [← List.getElem?_map, map_string (noNul_readLines hnul _ _)] at hi'
      exact readLines_bounded hsizes hi'
    · rw [hcalls, hrun, List.map_append]
      rfl
    · obtain ⟨l, hl, rfl⟩ := List.mem_map.1 hs
      rw [string_append (hss l hl)]
      exact hne l hl
    · rw [map_string hss, hflat]

/-- **When lines are read without loss.** For every file without terminators in it, every connection
that returns it, and calls of any sizes: just when each line, with its newline, fits into the buffer
of the call that comes to it. -/
theorem fgets_iff (hs : Streams fread holds) {conn : σ} (hat : holds conn content)
    (hnul : NoNul content) (hsizes : ∀ i, 2 ≤ sizes i ∧ sizes i < 2 ^ 31) :
    LinesRead fread sizes ⟨conn, .prettyGood⟩ content ↔ LinesFit sizes content :=
  (linesRead_iff_recovered hs hat hnul hsizes).trans (recovered_iff hsizes)

/-- The connections of `freadFile` return the bytes that were not read yet. -/
theorem streams_file : Streams Elf.freadFile (· = ·) where
  next h := ⟨_, by rw [h]; rfl, rfl⟩
  last h := ⟨[], by rw [h]; rfl⟩

/-- A client of the file server at the byte `p` of a file returns the bytes from there on. -/
theorem streams_ext2 {sb : Ext2.Superblock} {disk : ℕ → UInt8} {fsnode : Ext2.FsNode}
    {e : Ext2.Inode} (hbs : sb.blockSize ≤ 1) (hm : Ext2.FileMapped sb disk e)
    (hn : Ext2.FileNear sb disk e) : Streams (Ext2.fread sb) fun sys l =>
      ∃ p, Ext2.Streaming sb disk fsnode e p sys ∧ (Ext2.fileContent sb disk e).drop p = l where
  next := by
    rintro sys c l ⟨p, h, hl⟩
    obtain ⟨sys', hrun, hs, -⟩ := h.fread hbs hm hn (show 1 * 1 < 2 ^ 31 by decide)
    have hlen := congrArg List.length hl
    rw [List.length_drop, Ext2.length_fileContent, List.length_cons] at hlen
    rw [hl] at hrun
    rw [show min (1 * 1) (e.lowerSize - p) = 1 by omega] at hs
    refine ⟨sys', hrun, p + 1, hs, ?_⟩
    rw [← List.drop_drop, hl]
    rfl
  last := by
    rintro sys ⟨p, h, hl⟩
    obtain ⟨sys', hrun, -⟩ := h.fread hbs hm hn (show 1 * 1 < 2 ^ 31 by decide)
    rw [hl] at hrun
    exact ⟨sys', hrun⟩

/-- Two lines of two characters, read into buffers of three bytes. -/
theorem fgets_iff_two : LinesRead Elf.freadFile (fun _ => 3) ⟨[0x61, 0x0a, 0x62, 0x0a], .prettyGood⟩
    [0x61, 0x0a, 0x62, 0x0a] := by
  refine (fgets_iff streams_file rfl (by decide) fun _ => by decide).2 ?_
  have hlines : fileLines [0x61, 0x0a, 0x62, 0x0a] = [[0x61, 0x0a], [0x62, 0x0a]] := by decide
  intro k line hk
  rw [hlines] at hk
  have hmem := List.mem_of_getElem? hk
  simp only [List.mem_cons, List.not_mem_nil, or_false] at hmem
  rcases hmem with rfl | rfl <;> exact (by decide : (2 : ℤ) ≤ 3 - 1)

/-- A line of two characters is not read right into a buffer of two bytes. -/
theorem fgets_lost : ¬ ∀ (σ : Type) (fread : σ → ℕ → ℕ → Option (σ × List UInt8))
    (holds : σ → List UInt8 → Prop) (conn : σ) (content : List UInt8) (sizes : ℕ → ℤ),
    Streams fread holds → holds conn content → NoNul content →
    (∀ i, 2 ≤ sizes i ∧ sizes i < 2 ^ 31) →
    LinesRead fread sizes ⟨conn, .prettyGood⟩ content := by
  intro h
  have hsizes : ∀ _ : ℕ, (2 : ℤ) ≤ 2 ∧ (2 : ℤ) < 2 ^ 31 := fun _ => by decide
  have hnul : NoNul [0x61, 0x62] := by decide
  have hread := h _ _ _ [0x61, 0x62] [0x61, 0x62] (fun _ => 2) streams_file rfl hnul hsizes
  have hfit := (recovered_iff hsizes).1
    ((linesRead_iff_recovered streams_file rfl hnul hsizes).1 hread)
  exact absurd (hfit 0 [0x61, 0x62] (by decide)) (by decide)

end C4OS.Libc
