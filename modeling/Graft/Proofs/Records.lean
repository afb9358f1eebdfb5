import Graft.Proofs.Twins
import Mathlib.Algebra.Ring.Nat
import Mathlib.Data.List.Nodup

/-!
# Reading records back

The fields of a record can be told apart from its front: a number takes eight bytes, a text carries
its length, and a list carries the number of its entries. So records that are equal were made of
equal fields, provided that the numbers and the lengths in them fit into eight bytes.
-/

namespace Graft

/-- The number fits into eight bytes. -/
def IsWord (n : Nat) : Prop := n < UInt64.size

instance (n : Nat) : Decidable (IsWord n) := inferInstanceAs (Decidable (n < UInt64.size))

namespace Record

variable {r r' : Record}

/-! ## Fields -/

theorem length_word (n : Nat) : (word n).length = 8 := by
  rw [word, List.length_map, List.length_range]

/-- Numbers of `k` bytes with the same bytes are the same. -/
theorem eq_of_bytes {k m n : Nat} (hm : m < 256 ^ k) (hn : n < 256 ^ k)
    (h : ∀ i < k, m / 256 ^ i % 256 = n / 256 ^ i % 256) : m = n := by
  induction k generalizing m n with
  | zero => omega
  | succ k ih =>
      rw [Nat.pow_succ] at hm hn
      have hlow : m % 256 = n % 256 := by simpa using h 0 (Nat.succ_pos k)
      have hhigh : m / 256 = n / 256 := by
        refine ih (Nat.div_lt_of_lt_mul (by omega)) (Nat.div_lt_of_lt_mul (by omega)) fun i hi => ?_
        have hnext := h (i + 1) (Nat.succ_lt_succ hi)
        rwa [Nat.pow_succ', ← Nat.div_div_eq_div_mul, ← Nat.div_div_eq_div_mul] at hnext
      omega

theorem word_inj {m n : Nat} (hm : IsWord m) (hn : IsWord n) (h : word m = word n) : m = n := by
  have hsize : UInt64.size = 256 ^ 8 := rfl
  rw [IsWord, hsize] at hm hn
  refine eq_of_bytes hm hn fun i hi => ?_
  have hbyte := List.map_inj_left.mp h i (List.mem_range.mpr hi)
  have hdigit := congrArg UInt8.toNat hbyte
  rw [show 256 ^ i = 2 ^ (8 * i) by rw [Nat.pow_mul]]
  simpa [Nat.shiftRight_eq_div_pow] using hdigit

theorem word_append_inj {m n : Nat} (hm : IsWord m) (hn : IsWord n)
    (h : word m ++ r = word n ++ r') : m = n ∧ r = r' := by
  obtain ⟨hword, hrest⟩ := List.append_inj h (by rw [length_word, length_word])
  exact ⟨word_inj hm hn hword, hrest⟩

theorem string_append_inj {s t : String} (hs : IsWord s.utf8ByteSize) (ht : IsWord t.utf8ByteSize)
    (h : string s ++ r = string t ++ r') : s = t ∧ r = r' := by
  rw [string, string, List.append_assoc, List.append_assoc] at h
  obtain ⟨hsize, h⟩ := word_append_inj hs ht h
  obtain ⟨hbytes, hrest⟩ := List.append_inj h (by simpa using hsize)
  exact ⟨String.toByteArray_inj.mp (ByteArray.ext (Array.toList_inj.mp hbytes)), hrest⟩

/-- Lists of equally many fields can be read back if each field can. -/
theorem flatMap_append_inj {α : Type} {field : α → Record} {l l' : List α}
    (hlength : l.length = l'.length)
    (field_inj : ∀ a ∈ l, ∀ b ∈ l', ∀ {s s'}, field a ++ s = field b ++ s' → a = b ∧ s = s')
    (h : l.flatMap field ++ r = l'.flatMap field ++ r') : l = l' ∧ r = r' := by
  induction l generalizing l' with
  | nil =>
      obtain rfl := List.length_eq_zero_iff.mp hlength.symm
      exact ⟨rfl, h⟩
  | cons a rest ih =>
      cases l' with
      | nil => cases hlength
      | cons b rest' =>
          rw [List.flatMap_cons, List.flatMap_cons, List.append_assoc, List.append_assoc] at h
          obtain ⟨rfl, hrest⟩ := field_inj a List.mem_cons_self b List.mem_cons_self h
          obtain ⟨rfl, hend⟩ := ih (Nat.succ.inj hlength)
            (fun x hx y hy => field_inj x (List.mem_cons_of_mem _ hx) y (List.mem_cons_of_mem _ hy))
            hrest
          exact ⟨rfl, hend⟩

end Record

/-! ## Primitives -/

theorem Native.mem_all (n : Native) : n ∈ builtins ++ library := by
  cases n with
  | math f => cases f <;> decide
  | _ => decide

/-- No two primitives have one name. -/
theorem Native.name_inj {m n : Native} (h : m.name = n.name) : m = n := by
  have distinct : ((builtins ++ library).map name).Nodup := by decide
  exact List.inj_on_of_nodup_map distinct m.mem_all n.mem_all h

theorem Native.isWord_name (n : Native) : IsWord n.name.utf8ByteSize := by
  cases n with
  | math f => cases f <;> decide
  | _ => decide

end Graft
