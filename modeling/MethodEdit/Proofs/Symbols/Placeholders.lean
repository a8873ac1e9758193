import Mathlib.Data.List.Nodup
import Mathlib.Order.Bounds.Defs
import MethodEdit.Symbols.Basic

/-!
Placeholders are found and are free. If the name made of stem and number is taken, numbers are put
behind it one after another until a name is free. As different numbers make different names, there
are no more rounds than names that are taken, whatever these look like.
-/
namespace MethodEdit

def suffixed (name : String) (n : Nat) : String := name ++ "_" ++ Nat.repr n

theorem suffixed_injective (name : String) : Function.Injective (suffixed name) := by
  intro m n h
  have hrepr : Nat.repr m = Nat.repr n := (String.append_right_inj _).1 h
  have hdigits : Nat.toDigits 10 m = Nat.toDigits 10 n := by
    simpa [Nat.repr_eq_ofList_toDigits, String.ofList_inj] using hrepr
  have hread := congrArg (Nat.ofDigitChars 10 · 0) hdigits
  simpa using hread

theorem exists_free_number (name : String) (taken : List String) :
    ∃ n ≤ taken.length, suffixed name (n + 1) ∉ taken := by
  by_contra hall
  push Not at hall
  have hinjective : Function.Injective fun n => suffixed name (n + 1) :=
    fun _ _ h => Nat.succ.inj (suffixed_injective name h)
  have hnodup := (List.nodup_range (n := taken.length + 1)).map hinjective
  have hsub : (List.range (taken.length + 1)).map (fun n => suffixed name (n + 1)) ⊆ taken := by
    intro candidate hc
    obtain ⟨n, hn, rfl⟩ := List.mem_map.1 hc
    exact hall n (Nat.le_of_lt_succ (List.mem_range.1 hn))
  have hle := hnodup.length_le_of_subset hsub
  simp only [List.length_map, List.length_range] at hle
  omega

variable {stem name : String} {number : Nat} {taken : List String}

theorem placeholder_of_free (h : stem ++ Nat.repr number ∉ taken) :
    placeholder stem number taken = stem ++ Nat.repr number := if_neg h

/-- The candidates end behind the first one that is free. -/
theorem placeholder_of_taken (h : stem ++ Nat.repr number ∈ taken) :
    ∃ n ≤ taken.length,
      placeholder stem number taken = suffixed (stem ++ Nat.repr number) (n + 1) ∧
      suffixed (stem ++ Nat.repr number) (n + 1) ∉ taken ∧
      ∀ k < n, suffixed (stem ++ Nat.repr number) (k + 1) ∈ taken := by
  generalize hname : stem ++ Nat.repr number = name at h
  have hplaceholder : placeholder stem number taken =
      (((List.range (taken.length + 1)).find? fun n => suffixed name (n + 1) ∉ taken).map
        fun n => suffixed name (n + 1)).getD name := by
    simp only [placeholder, hname]
    rw [if_pos h, List.find?_map]
    rfl
  cases hf : (List.range (taken.length + 1)).find? fun n => suffixed name (n + 1) ∉ taken with
  | none =>
    obtain ⟨n, hn, hfree⟩ := exists_free_number name taken
    have htaken := List.find?_eq_none.1 hf n (List.mem_range.2 (Nat.lt_succ_of_le hn))
    simp [hfree] at htaken
  | some n =>
    obtain ⟨hfree, hmem, hbefore⟩ := List.find?_range_eq_some.1 hf
    refine ⟨n, Nat.le_of_lt_succ (List.mem_range.1 hmem), ?_, by simpa using hfree, ?_⟩
    · rw [hplaceholder, hf]
      rfl
    · simpa using hbefore

theorem placeholder_notMem (stem : String) (number : Nat) (taken : List String) :
    placeholder stem number taken ∉ taken := by
  by_cases h : stem ++ Nat.repr number ∈ taken
  · obtain ⟨n, -, heq, hfree, -⟩ := placeholder_of_taken h
    rw [heq]
    exact hfree
  · rw [placeholder_of_free h]
    exact h

theorem placeholder_eq_append (stem : String) (number : Nat) (taken : List String) :
    ∃ more, placeholder stem number taken = stem ++ Nat.repr number ++ more := by
  by_cases h : stem ++ Nat.repr number ∈ taken
  · obtain ⟨n, -, heq, -, -⟩ := placeholder_of_taken h
    exact ⟨"_" ++ Nat.repr (n + 1), by rw [heq, suffixed, String.append_assoc]⟩
  · exact ⟨"", by rw [placeholder_of_free h, String.append_empty]⟩

/-- The search for a free name through all numbers from `n` on. It ends with the first name that is
free, after so many rounds with names that are taken. -/
inductive NameSearch (taken : List String) (name : String) : Nat → Nat → String → Prop
  | free {n : Nat} : suffixed name n ∉ taken → NameSearch taken name n 0 (suffixed name n)
  | again {n rounds : Nat} {found : String} : suffixed name n ∈ taken →
      NameSearch taken name (n + 1) rounds found → NameSearch taken name n (rounds + 1) found

/-- The number of rounds is the distance to the first free name. -/
theorem nameSearch_iff {n rounds : Nat} {found : String} :
    NameSearch taken name n rounds found ↔
      found = suffixed name (rounds + n) ∧ suffixed name (rounds + n) ∉ taken ∧
        ∀ k < rounds, suffixed name (k + n) ∈ taken := by
  induction rounds generalizing n with
  | zero =>
    rw [Nat.zero_add]
    constructor
    · rintro ⟨hfree⟩
      exact ⟨rfl, hfree, by simp⟩
    · rintro ⟨rfl, hfree, -⟩
      exact .free hfree
  | succ rounds ih =>
    have hshift (k : Nat) : k + 1 + n = k + (n + 1) := by omega
    rw [hshift]
    constructor
    · rintro (_ | ⟨htaken, hrest⟩)
      obtain ⟨hfound, hfree, hall⟩ := ih.1 hrest
      refine ⟨hfound, hfree, fun k hk => ?_⟩
      cases k with
      | zero => simpa using htaken
      | succ k => exact hshift k ▸ hall k (by omega)
    · rintro ⟨hfound, hfree, hall⟩
      have htaken : suffixed name n ∈ taken := by simpa using hall 0 (by omega)
      refine .again htaken (ih.2 ⟨hfound, hfree, fun k hk => ?_⟩)
      exact hshift k ▸ hall (k + 1) (by omega)

/-- For any stem and number, and whatever names are taken, the placeholder is free. It is stem and
number if that is free. Otherwise the search through all numbers from 1 on ends with it and with
nothing else, after no more rounds than there are names, and its number is the least one that makes
a free name. -/
theorem placeholder_found (stem : String) (number : Nat) (taken : List String) :
    placeholder stem number taken ∉ taken ∧
    if stem ++ Nat.repr number ∈ taken then
      ∃ n ≤ taken.length,
        placeholder stem number taken = suffixed (stem ++ Nat.repr number) (n + 1) ∧
        IsLeast {k | 1 ≤ k ∧ suffixed (stem ++ Nat.repr number) k ∉ taken} (n + 1) ∧
        ∀ rounds found, NameSearch taken (stem ++ Nat.repr number) 1 rounds found ↔
          rounds = n ∧ found = placeholder stem number taken
    else placeholder stem number taken = stem ++ Nat.repr number := by
  refine ⟨placeholder_notMem stem number taken, ?_⟩
  split
  · rename_i h
    obtain ⟨n, hn, heq, hfree, hall⟩ := placeholder_of_taken h
    refine ⟨n, hn, heq, ⟨⟨by omega, hfree⟩, ?_⟩, fun rounds found => ?_⟩
    · rintro k ⟨hpos, hk⟩
      by_contra hlt
      have htaken := hall (k - 1) (by omega)
      rw [Nat.sub_add_cancel hpos] at htaken
      exact hk htaken
    · rw [nameSearch_iff, heq]
      constructor
      · rintro ⟨rfl, hend, hbefore⟩
        -- neither of the two can be free before the other
        have hle : ¬rounds < n := fun hlt => hend (hall rounds hlt)
        have hge : ¬n < rounds := fun hlt => hfree (hbefore n hlt)
        obtain rfl : rounds = n := by omega
        exact ⟨rfl, rfl⟩
      · rintro ⟨rfl, rfl⟩
        exact ⟨rfl, hfree, hall⟩
  · rename_i h
    exact placeholder_of_free h

-- names that look like placeholders are passed over, also those that are made of other numbers
example : placeholder "V_0" 1 ["V_01_2", "V_01", "V_0_1", "V_01_1"] = "V_01_3" := by decide +kernel

end MethodEdit
