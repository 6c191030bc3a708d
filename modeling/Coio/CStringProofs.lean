import Mathlib.Data.List.Basic

/-! # C strings in memory — `strncpy`, `strcmp`, and a string from a pointer

    A pointer to characters is the memory that begins there.  Its string ends before
    the first NUL; a function that looks for the NUL and finds none has read past
    the memory it was given (`none`).

    Nothing here knows what the strings are for. -/

namespace CoioCString

/-- The characters before the first NUL. -/
def chars (mem : List UInt8) : List UInt8 := mem.takeWhile (· ≠ 0)

def NulFree (s : List UInt8) : Prop := 0 ∉ s

instance (s : List UInt8) : Decidable (NulFree s) := inferInstanceAs (Decidable (¬ 0 ∈ s))

/-- `n` characters are written: the string, cut off or filled up with NULs. -/
def strncpy (dst src : List UInt8) (n : Nat) : List UInt8 :=
  (chars src).take n ++ List.replicate (n - (chars src).length) 0 ++ dst.drop n

def strcmp : List UInt8 → List UInt8 → Option Int
  | a :: as, b :: bs =>
      if a ≠ b then some ((a.toNat : Int) - b.toNat)
      else if a = 0 then some 0
      else strcmp as bs
  | _, _ => none

/-- `std::string` from a pointer. -/
def ofPointer (mem : List UInt8) : Option (List UInt8) :=
  if 0 ∈ mem then some (chars mem) else none

variable {s t : List UInt8}

theorem NulFree.take (hs : NulFree s) (n : Nat) : NulFree (s.take n) :=
  fun h => hs (List.mem_of_mem_take h)

theorem chars_append (hs : NulFree s) (rest : List UInt8) :
    chars (s ++ rest) = s ++ chars rest := by
  refine List.takeWhile_append_of_pos ?_
  intro c hc
  exact decide_eq_true (fun h0 => hs (h0 ▸ hc))

/-- A string with NULs behind it. -/
theorem chars_padded (hs : NulFree s) (n : Nat) : chars (s ++ List.replicate n 0) = s := by
  rw [chars_append hs]
  cases n <;> simp [chars, List.replicate_succ]

theorem chars_of_nulFree (hs : NulFree s) : chars s = s := by
  have h := chars_padded hs 0
  rwa [List.replicate_zero, List.append_nil] at h

/-- A string that fits is copied as a whole. -/
theorem strncpy_of_le {dst : List UInt8} {n : Nat} (hs : NulFree s) (hlen : s.length ≤ n)
    (hdst : dst.length = n) : strncpy dst s n = s ++ List.replicate (n - s.length) 0 := by
  unfold strncpy
  rw [chars_of_nulFree hs, List.take_of_length_le hlen, List.drop_of_length_le (Nat.le_of_eq hdst),
    List.append_nil]

/-- Where there is room for a NUL, the string is read back. -/
theorem ofPointer_padded (hs : NulFree s) {n : Nat} (hn : 0 < n) :
    ofPointer (s ++ List.replicate n 0) = some s := by
  have hmem : 0 ∈ s ++ List.replicate n 0 :=
    List.mem_append_right s (List.mem_replicate.mpr ⟨Nat.ne_of_gt hn, rfl⟩)
  unfold ofPointer
  rw [if_pos hmem, chars_padded hs]

theorem toNat_sub_ne_zero {a b : UInt8} (h : a ≠ b) : (a.toNat : Int) - b.toNat ≠ 0 := by
  intro h0
  exact h (UInt8.toNat_inj.mp (by omega))

/-- Two strings compare equal if they are. -/
theorem strcmp_padded (hs : NulFree s) (ht : NulFree t) {m n : Nat} (hm : 0 < m) (hn : 0 < n) :
    ∃ r, strcmp (s ++ List.replicate m 0) (t ++ List.replicate n 0) = some r ∧
      (r = 0 ↔ s = t) := by
  obtain ⟨m, rfl⟩ := Nat.exists_eq_succ_of_ne_zero (Nat.ne_of_gt hm)
  obtain ⟨n, rfl⟩ := Nat.exists_eq_succ_of_ne_zero (Nat.ne_of_gt hn)
  rw [List.replicate_succ, List.replicate_succ]
  clear hm hn
  -- both strings are consumed together, up to the first difference or the NULs
  induction s generalizing t with
  | nil =>
      cases t with
      | nil => exact ⟨0, by simp [strcmp], by simp⟩
      | cons b t =>
          have hb : (0 : UInt8) ≠ b := fun h => ht (h ▸ List.mem_cons_self ..)
          exact ⟨_, if_pos hb, iff_of_false (toNat_sub_ne_zero hb) (by simp)⟩
  | cons a s ih =>
      have ha : a ≠ 0 := fun h => hs (h ▸ List.mem_cons_self ..)
      cases t with
      | nil => exact ⟨_, if_pos ha, iff_of_false (toNat_sub_ne_zero ha) (by simp)⟩
      | cons b t =>
          by_cases hab : a = b
          · subst hab
            obtain ⟨r, hr, hzero⟩ := ih (fun h => hs (List.mem_cons_of_mem _ h))
              (fun h => ht (List.mem_cons_of_mem _ h))
            refine ⟨r, ?_, hzero.trans (by simp)⟩
            show (if a ≠ a then _ else if a = 0 then _ else _) = _
            rw [if_neg (not_not_intro rfl), if_neg ha]
            exact hr
          · exact ⟨_, if_pos hab, iff_of_false (toNat_sub_ne_zero hab) (by simp [hab])⟩

end CoioCString
