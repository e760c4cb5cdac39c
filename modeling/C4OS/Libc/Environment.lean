import C4OS.Libc.Strings

/-!
# The environment

`getenv` searches the array of the entries, each of the form `NAME=value`. It gives up at the first
entry whose name is not as long as the one that is looked for, and where the lengths are the same,
`strncmp` compares the terminator of the name with the `=` behind that of the entry, so that it is
never zero (`strncmp_entry`). So nothing is ever found (`getenv_null`), which is right just when
there is nothing to be found (`getenv_iff`).
-/

namespace C4OS.Libc

/-- The loop of `getenv`: the pointer that it returns, or nothing for the null pointer. It has no
result where it counts from the null pointer of `strchr`. -/
def getenvLoop (name : Chars) : List Chars → Option (Option Chars)
  | [] => some none
  | entry :: env => do
    let len ← strcspn entry [0x3d, 0]
    if (← strlen name) ≠ len then return none
    else if (← strncmp name entry len) = 0 then
      let p ← (← strchr entry (char 0x3d))
      return some p.tail
    else getenvLoop name env

/-- `getenv`; `globalEnv` is nothing before `_start` has set it. -/
def getenv (globalEnv : Option (List Chars)) (name : Chars) : Option (Option Chars) :=
  match globalEnv with
  | none => some none
  | some env => getenvLoop name env

/-- A variable of the environment. -/
structure EnvVar where
  name : List UInt8
  value : List UInt8
  name_ok : ∀ c ∈ name, c ≠ 0 ∧ c ≠ 0x3d
  value_ok : NoNul value

namespace EnvVar

/-- The entry of a variable. -/
def entry (v : EnvVar) : Chars := v.name ++ 0x3d :: v.value ++ [0]

theorem noNul_name (v : EnvVar) : NoNul v.name := fun c hc => (v.name_ok c hc).1

theorem noNul_entry (v : EnvVar) : NoNul (v.name ++ 0x3d :: v.value) := by
  intro c hc
  rcases List.mem_append.1 hc with hc | hc
  · exact v.noNul_name c hc
  · rcases List.mem_cons.1 hc with rfl | hc
    · decide
    · exact v.value_ok c hc

/-- The name of a variable goes up to the `=`. -/
theorem strcspn_entry (v : EnvVar) : strcspn v.entry [0x3d, 0] = some v.name.length := by
  rw [entry, List.append_assoc]
  exact strcspn_single (by decide) v.name_ok (.inr rfl) _

end EnvVar

/-- `getenv` returns the value of the first variable with the name, and the null pointer when there
is none. -/
def GetenvRight (env : List EnvVar) (name : List UInt8) : Prop :=
  getenv (some (env.map EnvVar.entry)) (name ++ [0]) =
    some ((env.find? fun v => v.name = name).map fun v => v.value ++ [0])

/-- **A name is never equal to that of an entry** for `strncmp`. -/
theorem strncmp_entry (v : EnvVar) {name : List UInt8} (h : NoNul name)
    (hlen : name.length = v.name.length) :
    ∃ r, strncmp (name ++ [0]) v.entry v.name.length = some r ∧ r ≠ 0 := by
  by_cases hname : name = v.name
  · subst hname
    refine ⟨char 0 - char 0x3d, ?_, by decide⟩
    rw [EnvVar.entry, List.append_assoc]
    exact strncmp_agree h
  · have hnot : ¬ AgreeUpTo v.name.length name (v.name ++ 0x3d :: v.value) := by
      rintro ⟨p, hp, hpre, hpre'⟩
      obtain rfl := hpre.eq_of_length (hp.trans hlen.symm)
      have hsame := List.prefix_of_prefix_length_le hpre' (List.prefix_append v.name _) hp.le
      exact hname (hsame.eq_of_length hp)
    obtain ⟨r, hr, hzero⟩ := strcmp_eq_zero_iff h v.noNul_name [] []
    refine ⟨r, ?_, fun hr => hname (hzero.1 hr)⟩
    rw [EnvVar.entry, strncmp_eq_strcmp h v.noNul_entry hnot, List.take_left,
      List.take_of_length_le hlen.le]
    exact hr

/-- **Nothing is ever found.** -/
theorem getenv_null (env : List EnvVar) {name : List UInt8} (h : NoNul name) :
    getenv (some (env.map EnvVar.entry)) (name ++ [0]) = some none := by
  show getenvLoop _ _ = _
  induction env with
  | nil => rfl
  | cons v env ih =>
    rw [List.map_cons, getenvLoop, v.strcspn_entry, strlen_eq h]
    by_cases hlen : name.length = v.name.length
    · obtain ⟨r, hr, hne⟩ := strncmp_entry v h hlen
      simp only [Option.bind_eq_bind, Option.bind_some, hlen, hr, hne, ne_eq, not_true_eq_false,
        if_false]
      exact ih
    · exact if_pos hlen

/-- **When a lookup in the environment is right.** For every environment and every name: just when
no variable has the name. -/
theorem getenv_iff (env : List EnvVar) {name : List UInt8} (h : NoNul name) :
    GetenvRight env name ↔ ∀ v ∈ env, v.name ≠ name := by
  rw [GetenvRight, getenv_null env h, Option.some_inj, eq_comm, Option.map_eq_none_iff,
    List.find?_eq_none]
  simp only [decide_eq_true_iff]

/-- The variable `A=1`. -/
def varA : EnvVar := ⟨[0x41], [0x31], List.forall_mem_singleton.2 (by decide), by decide⟩

/-- The name `B` is not found beside it. -/
theorem getenv_iff_other : GetenvRight [varA] [0x42] :=
  (getenv_iff [varA] (by decide)).2 (by decide)

/-- The name `A` is not found either. -/
theorem getenv_varA : ¬ ∀ (env : List EnvVar) (name : List UInt8), NoNul name → name ≠ [] →
    0x3d ∉ name → GetenvRight env name := by
  intro h
  have hname : NoNul [0x41] := by decide
  have hright := h [varA] [0x41] hname (by decide) (by decide)
  exact absurd ((getenv_null [varA] hname).symm.trans hright) (by decide)

end C4OS.Libc
