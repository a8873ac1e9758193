import MethodEdit.Proofs.Graph.References

/-!
The grammar of type names. A plain name is one or more segments with dots between them, and the name
of a by-reference type has one ampersand behind a plain name. The check of type names looks at the
ampersands first, then cuts at the dots, then looks at each part; altogether it accepts the texts of
the grammar and no others.
-/
namespace MethodEdit

/-- The code points that the Unicode property `White_Space` lists. -/
def Text.whiteSpace : List Nat :=
  [0x9, 0xa, 0xb, 0xc, 0xd, 0x20, 0x85, 0xa0, 0x1680, 0x2000, 0x2001, 0x2002, 0x2003, 0x2004,
    0x2005, 0x2006, 0x2007, 0x2008, 0x2009, 0x200a, 0x2028, 0x2029, 0x202f, 0x205f, 0x3000]

theorem Text.isBlank_iff {c : Char} : isBlank c = true ↔ c.toNat ∈ whiteSpace := by
  have hcontrols (n : Nat) : 9 ≤ n ∧ n ≤ 13 ↔
      n = 0x9 ∨ n = 0xa ∨ n = 0xb ∨ n = 0xc ∨ n = 0xd := by omega
  have hspaces (n : Nat) : 0x2000 ≤ n ∧ n ≤ 0x200a ↔
      n = 0x2000 ∨ n = 0x2001 ∨ n = 0x2002 ∨ n = 0x2003 ∨ n = 0x2004 ∨ n = 0x2005 ∨
      n = 0x2006 ∨ n = 0x2007 ∨ n = 0x2008 ∨ n = 0x2009 ∨ n = 0x200a := by omega
  simp only [isBlank, whiteSpace, Bool.or_eq_true, Bool.and_eq_true, decide_eq_true_eq, beq_iff_eq,
    hcontrols, hspaces, List.mem_cons, List.not_mem_nil, or_false, or_assoc]

theorem isNameChar_iff {c : Char} :
    isNameChar c = true ↔ c.toNat ∉ Text.whiteSpace ∧ c ≠ ';' ∧ c ≠ '&' := by
  simp only [isNameChar, Bool.not_eq_true', ← Bool.not_eq_true, Bool.or_eq_true, Text.isBlank_iff,
    beq_iff_eq, not_or, and_assoc, Ne]

namespace TypeName

variable {name : String} {text segment : List Char} {c : Char}

structure IsSegment (segment : String) : Prop where
  nonempty : segment ≠ ""
  free : ∀ c ∈ segment.toList, c.toNat ∉ Text.whiteSpace ∧ c ≠ ';' ∧ c ≠ '&' ∧ c ≠ '.'

def IsPlain (name : String) : Prop :=
  ∃ parts : List String, parts ≠ [] ∧ (∀ part ∈ parts, IsSegment part) ∧
    name = ".".intercalate parts

/-- A plain name, or one with an ampersand behind it. -/
def IsTypeName (name : String) : Prop :=
  IsPlain name ∨ ∃ plain, IsPlain plain ∧ name = plain ++ "&"

theorem segments_ne_nil (text : List Char) : segments text ≠ [] := by
  cases text with
  | nil => simp [segments]
  | cons c rest =>
    unfold segments
    split
    · simp
    · split <;> simp

theorem segments_cons (hc : c ≠ '.') (rest : List Char) :
    ∃ segment others, segments rest = segment :: others ∧
      segments (c :: rest) = (c :: segment) :: others := by
  obtain ⟨segment, others, hrest⟩ := List.exists_cons_of_ne_nil (segments_ne_nil rest)
  exact ⟨segment, others, hrest, by rw [segments, if_neg hc, hrest]⟩

theorem segments_eq_splitOn (text : List Char) : segments text = text.splitOn '.' := by
  induction text with
  | nil => rfl
  | cons c rest ih =>
    rw [List.splitOn_cons_eq_if_modifyHead, ← ih]
    by_cases hc : c = '.'
    · simp [segments, hc]
    · obtain ⟨segment, others, hrest, hcons⟩ := segments_cons hc rest
      simp [hc, hrest, hcons]

theorem join_segments (text : List Char) :
    ".".intercalate ((segments text).map String.ofList) = String.ofList text := by
  rw [← String.toList_inj, String.toList_intercalate, List.map_map, String.toList_ofList]
  simp [segments_eq_splitOn, Function.comp_def, List.intercalate_splitOn]

theorem segments_join {parts : List String} (hne : parts ≠ [])
    (hdots : ∀ part ∈ parts, '.' ∉ part.toList) :
    segments (".".intercalate parts).toList = parts.map String.toList := by
  rw [segments_eq_splitOn, String.toList_intercalate]
  exact List.splitOn_intercalate '.' (by simpa using hdots) (by simpa using hne)

theorem exists_mem_segments_iff :
    (∃ segment ∈ segments text, c ∈ segment) ↔ c ∈ text ∧ c ≠ '.' := by
  induction text with
  | nil => simp [segments]
  | cons first rest ih =>
    by_cases hfirst : first = '.'
    · simp only [segments, hfirst, if_true, List.mem_cons, exists_eq_or_imp, List.not_mem_nil,
        false_or, ih]
      exact ⟨fun h => ⟨.inr h.1, h.2⟩, fun h => ⟨h.1.resolve_left h.2, h.2⟩⟩
    · obtain ⟨segment, others, hrest, hcons⟩ := segments_cons hfirst rest
      simp only [hrest, hcons, List.mem_cons, exists_eq_or_imp, or_assoc] at ih ⊢
      rw [ih]
      constructor
      · rintro (rfl | h)
        · exact ⟨.inl rfl, hfirst⟩
        · exact ⟨.inr h.1, h.2⟩
      · rintro ⟨h | h, hc⟩
        · exact .inl h
        · exact .inr ⟨h, hc⟩

/-- Of a part that is cut out at the dots, the check asks what the grammar asks of a segment. -/
theorem segmentFault?_eq_none_iff (h : segment ∈ segments text) :
    segmentFault? name segment = none ↔ IsSegment (String.ofList segment) := by
  have hdots : ∀ c ∈ segment, c ≠ '.' := fun c hc => (exists_mem_segments_iff.1 ⟨segment, h, hc⟩).2
  unfold segmentFault?
  split
  · rename_i hempty
    rw [List.isEmpty_iff.1 hempty]
    exact ⟨nofun, fun hs => absurd rfl hs.nonempty⟩
  · rename_i hempty
    have hne : segment ≠ [] := by simpa using hempty
    rw [memberNameFault?_eq_none_iff, String.toList_ofList]
    constructor
    · rintro ⟨-, hchars⟩
      refine ⟨?_, fun c hc => ?_⟩
      · rwa [Ne, ← String.toList_eq_nil_iff, String.toList_ofList]
      · rw [String.toList_ofList] at hc
        obtain ⟨hblank, hsemicolon, hampersand⟩ := isNameChar_iff.1 (hchars c hc)
        exact ⟨hblank, hsemicolon, hampersand, hdots c hc⟩
    · intro hs
      refine ⟨hne, fun c hc => isNameChar_iff.2 ?_⟩
      obtain ⟨hblank, hsemicolon, hampersand, -⟩ := hs.free c (by rwa [String.toList_ofList])
      exact ⟨hblank, hsemicolon, hampersand⟩

theorem isPlain_iff :
    IsPlain name ↔ ∀ segment ∈ segments name.toList, IsSegment (String.ofList segment) := by
  constructor
  · rintro ⟨parts, hne, hparts, rfl⟩ segment hs
    rw [segments_join hne fun part hp hdot => ((hparts part hp).free '.' hdot).2.2.2 rfl] at hs
    obtain ⟨part, hp, rfl⟩ := List.mem_map.1 hs
    rw [String.ofList_toList]
    exact hparts part hp
  · intro hsegments
    refine ⟨(segments name.toList).map String.ofList, by simpa using segments_ne_nil _, ?_, ?_⟩
    · simpa using hsegments
    · rw [join_segments, String.ofList_toList]

theorem IsPlain.ne_empty (h : IsPlain name) : name.toList ≠ [] := by
  intro hnil
  refine (isPlain_iff.1 h [] ?_).nonempty rfl
  simp [hnil, segments]

theorem IsPlain.ampersand_notMem (h : IsPlain name) : '&' ∉ name.toList := by
  intro hmem
  obtain ⟨segment, hs, hc⟩ := exists_mem_segments_iff.2 ⟨hmem, by decide⟩
  have hfree := (isPlain_iff.1 h segment hs).free '&' (by rwa [String.toList_ofList])
  exact hfree.2.2.1 rfl

/-- What is left without an ampersand at the end must be a plain name. -/
theorem fault?_eq_none_iff :
    fault? name = none ↔ IsPlain (String.ofList (element name.toList)) := by
  unfold fault?
  -- plain names are not empty and have no ampersand, so the first two checks let them pass
  generalize element name.toList = text
  constructor
  · intro h
    dsimp only at h
    split_ifs at h
    rw [isPlain_iff, String.toList_ofList]
    intro segment hs
    exact (segmentFault?_eq_none_iff hs).1 (List.findSome?_eq_none_iff.1 h segment hs)
  · intro h
    have hne := h.ne_empty
    have hampersand := h.ampersand_notMem
    rw [isPlain_iff] at h
    rw [String.toList_ofList] at h hne hampersand
    simp only [List.isEmpty_iff, hne, List.contains_iff_mem, hampersand, if_false]
    exact List.findSome?_eq_none_iff.2 fun segment hs =>
      (segmentFault?_eq_none_iff hs).2 (h segment hs)

theorem element_byRef (name : String) : element (byRef name).toList = name.toList := by
  simp [element, byRef]

theorem element_of_isByRef_eq_false (h : isByRef name = false) :
    element name.toList = name.toList := by
  rw [element, if_neg]
  simpa [isByRef] using h

theorem fault?_byRef_eq_none_iff : fault? (byRef name) = none ↔ IsPlain name := by
  rw [fault?_eq_none_iff, element_byRef, String.ofList_toList]

theorem IsPlain.isByRef (h : IsPlain name) : isByRef name = false := by
  rw [← Bool.not_eq_true, isByRef_iff]
  rintro ⟨front, rfl⟩
  exact h.ampersand_notMem (by simp)

theorem isTypeName_byRef_iff : IsTypeName (byRef name) ↔ IsPlain name := by
  constructor
  · rintro (hplain | ⟨plain, hplain, hname⟩)
    · exact absurd (isByRef_byRef name) (by simp [hplain.isByRef])
    · rwa [byRef_inj.1 hname]
  · exact fun hplain => .inr ⟨name, hplain, rfl⟩

theorem isTypeName_iff_of_isByRef_eq_false (h : isByRef name = false) :
    IsTypeName name ↔ IsPlain name := by
  refine ⟨?_, .inl⟩
  rintro (hplain | ⟨plain, -, hname⟩)
  · exact hplain
  · exact absurd (isByRef_iff.2 ⟨plain, hname⟩) (by simp [h])

theorem fault?_eq_none_iff_isTypeName : fault? name = none ↔ IsTypeName name := by
  cases h : isByRef name with
  | true =>
    obtain ⟨front, rfl⟩ := isByRef_iff.1 h
    exact fault?_byRef_eq_none_iff.trans isTypeName_byRef_iff.symm
  | false =>
    rw [isTypeName_iff_of_isByRef_eq_false h, fault?_eq_none_iff, element_of_isByRef_eq_false h,
      String.ofList_toList]

example : ∀ name ∈ ["", "&", ".", ".&", "..", "&&", "a.", ".a&", "a&.b"], fault? name ≠ none := by
  decide +kernel

theorem fault?_byRef_of_isByRef (h : isByRef name = true) :
    fault? (byRef name) = some (.nestedByRef (byRef name)) := by
  obtain ⟨front, rfl⟩ := isByRef_iff.1 h
  simp [fault?, element_byRef]

end TypeName

namespace Graph

variable {g : Graph} {t : Ty}

theorem type?_of_mem (hg : g.Distinct) (ht : t ∈ g.types) : g.type? t.name = some t := by
  have hstored := type?_addType g t
  rwa [(interns_of_distinct hg).1.again t ht t rfl] at hstored

theorem lookup_name_eq_ok_iff (hg : g.Distinct) (ht : t ∈ g.types) :
    g.lookup t.name = .ok t ↔ TypeName.IsTypeName t.name := by
  rw [← TypeName.fault?_eq_none_iff_isTypeName, lookup]
  split
  · rename_i fault hfault
    simp [hfault]
  · rename_i hfault
    simp [hfault, type?_of_mem hg ht]

end Graph

namespace TypeName

/-- A text is accepted as a type name exactly if it follows the grammar. So one ampersand can be put
behind an accepted name that has none, a second one never, and different names stay different with
it. The types of a graph are found by their names, if these are accepted. -/
theorem accepted_exactly_by_grammar :
    (∀ name, fault? name = none ↔ IsTypeName name) ∧
    (∀ name, isByRef name = true ↔ ∃ front, name = front ++ "&") ∧
    (∀ name, fault? name = none → isByRef name = false →
      fault? (byRef name) = none ∧ isByRef (byRef name) = true) ∧
    (∀ name, isByRef name = true → fault? (byRef name) = some (.nestedByRef (byRef name))) ∧
    Function.Injective byRef ∧
    ∀ actions, ∀ t ∈ (Graph.ofActions actions).types,
      (Graph.ofActions actions).lookup t.name = .ok t ↔ fault? t.name = none := by
  refine ⟨fun name => fault?_eq_none_iff_isTypeName, fun name => isByRef_iff,
    fun name haccepted hplain => ?_, fun name => fault?_byRef_of_isByRef,
    fun name other => byRef_inj.1, fun actions t ht => ?_⟩
  · rw [fault?_eq_none_iff_isTypeName, isTypeName_iff_of_isByRef_eq_false hplain] at haccepted
    exact ⟨fault?_byRef_eq_none_iff.2 haccepted, isByRef_byRef name⟩
  · rw [fault?_eq_none_iff_isTypeName]
    exact Graph.lookup_name_eq_ok_iff (Graph.distinct_ofActions actions) ht

theorem accepted_by_grammar_of_box :
    IsTypeName Sample.box.name ∧ isByRef Sample.box.name = false ∧
    fault? Sample.box.name = none ∧ fault? (byRef Sample.box.name) = none ∧
    fault? (byRef (byRef Sample.box.name)) =
      some (.nestedByRef (byRef (byRef Sample.box.name))) ∧
    Sample.box ∈ (Graph.ofActions Sample.boxing).types ∧
    (Graph.ofActions Sample.boxing).lookup Sample.box.name = .ok Sample.box := by
  have hname : IsTypeName Sample.box.name := by
    refine .inl ⟨["Game", "Box"], by decide, ?_, by decide⟩
    intro part hp
    obtain rfl | rfl : part = "Game" ∨ part = "Box" := by simpa using hp
    · exact ⟨by decide, by simp [Text.whiteSpace]⟩
    · exact ⟨by decide, by simp [Text.whiteSpace]⟩
  have hplain : isByRef Sample.box.name = false := by decide
  have hmem : Sample.box ∈ (Graph.ofActions Sample.boxing).types :=
    List.mem_of_getElem? (i := 9) rfl
  obtain ⟨hgrammar, -, hbyRef, hnested, -, hfound⟩ := accepted_exactly_by_grammar
  have haccepted := (hgrammar Sample.box.name).2 hname
  obtain ⟨haccepted', hends⟩ := hbyRef Sample.box.name haccepted hplain
  exact ⟨hname, hplain, haccepted, haccepted', hnested _ hends, hmem,
    (hfound Sample.boxing Sample.box hmem).2 haccepted⟩

end TypeName

end MethodEdit
