import JvmDecompiler.Ty.Descriptor

/-!
# Descriptors of types

`Ty.read?` and `Ty.descriptor` are inverse to each other on the types that a descriptor can spell
(`Ty.IsSpelled`): a text reads as a type and a rest exactly if it is the descriptor of the type in front of
the rest. No descriptor starts another one, so it needs no mark of its end.

`Descriptor.typeAt?` counts positions in bytes, while `Ty.read?` goes by characters. The two fit together
because a descriptor starts with the first byte of a character: wherever its bytes stand in a text,
characters start before and behind them (`Descriptor.extract_eq_iff`).
-/

namespace JvmDecompiler

namespace Descriptor

/-- A text is cut at the first place where a character stands. -/
theorem cut_iff {d c : Char} {text front back : List Char} :
    text.takeWhile (· ≠ d) = front ∧ text.dropWhile (· ≠ d) = c :: back ↔
      c = d ∧ d ∉ front ∧ text = front ++ d :: back := by
  constructor
  · rintro ⟨rfl, hback⟩
    have hc : c = d := by
      have hhead := List.head?_dropWhile_not (· ≠ d) text
      rw [hback] at hhead
      simpa using hhead
    subst hc
    refine ⟨rfl, fun hmem => by simpa using List.all_eq_true.1 List.all_takeWhile _ hmem, ?_⟩
    rw [← hback, List.takeWhile_append_dropWhile]
  · rintro ⟨rfl, hfront, rfl⟩
    have hall : ∀ x ∈ front, decide (x ≠ c) = true := fun x hx =>
      decide_eq_true fun heq => hfront (heq ▸ hx)
    rw [List.takeWhile_append_of_pos hall, List.dropWhile_append_of_pos hall]
    simp

end Descriptor

namespace Ty

/-! ## Types and the texts that spell them -/

/-- The types that a descriptor can spell: primitive types, `void`, classes whose name is not empty and
has no semicolon, and arrays of these. -/
def IsSpelled : Ty → Prop
  | .reference name => name ≠ "" ∧ ';' ∉ name.toList
  | .array element => element.IsSpelled
  | .null | .unknown => False
  | _ => True

/-- A class is spelled by its name between two letters. -/
@[simp]
theorem toList_descriptor_reference (name : String) :
    (descriptor (.reference name)).toList = 'L' :: (name.toList ++ [';']) := by
  simp [descriptor]

/-- An array is spelled by its elements behind a bracket. -/
@[simp]
theorem toList_descriptor_array (element : Ty) :
    (descriptor (.array element)).toList = '[' :: element.descriptor.toList := by
  simp [descriptor]

/-- A descriptor is read back, and what stands behind it is left. -/
theorem read?_descriptor_append {t : Ty} (ht : t.IsSpelled) (rest : List Char) :
    read? (t.descriptor.toList ++ rest) = some (t, rest) := by
  induction t with
  | reference name =>
    obtain ⟨hname, hsemi⟩ := ht
    obtain ⟨c, cs, hcs⟩ := List.exists_cons_of_ne_nil (mt String.toList_eq_nil_iff.1 hname)
    obtain ⟨hfront, hback⟩ := Descriptor.cut_iff.2 ⟨rfl, hsemi, rfl⟩
    rw [toList_descriptor_reference, List.cons_append, List.append_assoc, List.singleton_append, read?,
      hfront, hback, hcs]
    show some (reference (String.ofList (c :: cs)), rest) = _
    rw [← hcs, String.ofList_toList]
  | array element ih =>
    rw [toList_descriptor_array, List.cons_append, read?, ih ht]
    rfl
  | null | unknown => exact ht.elim
  | _ => rfl

/-- What is read is spelled by what is taken off the front. -/
theorem isSpelled_of_read? {text rest : List Char} {t : Ty} (h : read? text = some (t, rest)) :
    t.IsSpelled ∧ text = t.descriptor.toList ++ rest := by
  fun_induction read? text generalizing t rest with
  | case1 | case2 | case3 | case4 | case5 | case6 | case7 | case8 | case9 =>
    obtain ⟨rfl, rfl⟩ := Prod.mk.inj (Option.some.inj h)
    exact ⟨trivial, rfl⟩
  | case10 tail c name behind hback hfront =>
    obtain ⟨rfl, rfl⟩ := Prod.mk.inj (Option.some.inj h)
    obtain ⟨-, hsemi, htail⟩ := Descriptor.cut_iff.1 ⟨hfront, hback⟩
    refine ⟨⟨by simp, by rwa [String.toList_ofList]⟩, ?_⟩
    rw [toList_descriptor_reference, String.toList_ofList, htail]
    simp
  | case11 => simp at h
  | case12 tail ih =>
    obtain ⟨⟨t', rest'⟩, hr, he⟩ := Option.map_eq_some_iff.1 h
    obtain ⟨rfl, rfl⟩ := Prod.mk.inj he
    obtain ⟨ht, rfl⟩ := ih hr
    exact ⟨ht, by simp⟩
  | case13 => simp at h

/-- A type is read off the front exactly if its spelling is there. -/
theorem read?_eq_some_iff {text rest : List Char} {t : Ty} :
    read? text = some (t, rest) ↔ t.IsSpelled ∧ text = t.descriptor.toList ++ rest :=
  ⟨isSpelled_of_read?, fun ⟨ht, htext⟩ => htext ▸ read?_descriptor_append ht rest⟩

/-- A descriptor is read as a type exactly if it is its spelling. -/
theorem ofDescriptor?_eq_some_iff {text : String} {t : Ty} :
    ofDescriptor? text = some t ↔ t.IsSpelled ∧ t.descriptor = text := by
  have hread : ofDescriptor? text = some t ↔ read? text.toList = some (t, []) := by
    unfold ofDescriptor?
    split <;> simp_all
  rw [hread, read?_eq_some_iff, List.append_nil, String.toList_inj, eq_comm (a := text)]

end Ty

namespace Descriptor

/-! ## Positions -/

/-- The length of a text is counted in bytes. -/
theorem byteLength_eq (cs : List Char) : byteLength cs = (String.ofList cs).utf8ByteSize := by
  induction cs with
  | nil => rfl
  | cons c cs ih =>
    rw [byteLength, ih, String.ofList_cons, String.utf8ByteSize_append, String.utf8ByteSize_singleton]

/-- The same of a string. -/
theorem byteLength_toList (text : String) : byteLength text.toList = text.utf8ByteSize := by
  rw [byteLength_eq, String.ofList_toList]

/-- A position is reached if a character starts there. -/
theorem dropBytes?_eq_some_iff {n : Nat} {cs rest : List Char} :
    dropBytes? n cs = some rest ↔ ∃ front, cs = front ++ rest ∧ byteLength front = n := by
  constructor
  · intro h
    fun_induction dropBytes? n cs with
    | case1 cs => exact ⟨[], by simpa using h, rfl⟩
    | case2 => simp at h
    | case3 n c cs hfits ih =>
      obtain ⟨front, rfl, hfront⟩ := ih h
      exact ⟨c :: front, rfl, by rw [byteLength]; omega⟩
    | case4 => simp at h
  · rintro ⟨front, rfl, rfl⟩
    induction front with
    | nil => simp [byteLength, dropBytes?]
    | cons c front ih =>
      obtain ⟨n, hn⟩ := Nat.exists_eq_succ_of_ne_zero (Nat.ne_of_gt c.utf8Size_pos)
      have hlength : byteLength (c :: front) = n + byteLength front + 1 := by
        rw [byteLength]
        omega
      rw [hlength, List.cons_append, dropBytes?, if_pos (by omega), ← ih]
      congr 1
      omega

/-- Where the bytes of a word stand in a text, the word itself stands: a character starts at both ends of
them, since no byte inside a character can start another one. -/
theorem extract_eq_iff {text word : String} (hword : word ≠ "") {start stop : Nat} :
    stop ≤ text.utf8ByteSize ∧ text.toByteArray.extract start stop = word.toByteArray ↔
      ∃ front back, text = front ++ word ++ back ∧ front.utf8ByteSize = start ∧
        start + word.utf8ByteSize = stop := by
  constructor
  · rintro ⟨hstop, hbytes⟩
    have hstop' : stop ≤ text.toByteArray.size := hstop
    have hsize : stop - start = word.utf8ByteSize := by
      have hsizes := congrArg ByteArray.size hbytes
      rwa [ByteArray.size_extract, Nat.min_eq_left hstop'] at hsizes
    have hpos : 0 < word.utf8ByteSize :=
      Nat.pos_of_ne_zero (mt String.utf8ByteSize_eq_zero_iff.1 hword)
    have hle : start ≤ stop := by omega
    -- the bytes of a word start and end with characters, so they are cut out between two of them
    obtain ⟨hstart, hend⟩ :
        String.Pos.Raw.IsValid text ⟨start⟩ ∧ String.Pos.Raw.IsValid text ⟨stop⟩ := by
      refine ((String.Pos.Raw.isValidUTF8_extract_iff ⟨start⟩ ⟨stop⟩ hle hstop).1
        (hbytes ▸ word.isValidUTF8)).resolve_left fun heq => ?_
      obtain rfl : start = stop := congrArg String.Pos.Raw.byteIdx heq
      omega
    refine ⟨⟨_, hstart.isValidUTF8_extract_zero⟩, ⟨_, hend.isValidUTF8_extract_utf8ByteSize⟩,
      String.toByteArray_inj.1 ?_, ?_, by omega⟩
    · rw [String.toByteArray_append, String.toByteArray_append, ← hbytes]
      show _ = text.toByteArray.extract 0 start ++ text.toByteArray.extract start stop ++
        text.toByteArray.extract stop text.toByteArray.size
      rw [← ByteArray.extract_eq_extract_append_extract _ (Nat.zero_le _) hle,
        ← ByteArray.extract_eq_extract_append_extract _ (Nat.zero_le _) hstop',
        ByteArray.extract_zero_size]
    · show (text.toByteArray.extract 0 start).size = start
      rw [ByteArray.size_extract]
      omega
  · rintro ⟨front, back, rfl, rfl, rfl⟩
    refine ⟨by simp only [String.utf8ByteSize_append]; omega, ?_⟩
    rw [String.append_assoc, String.toByteArray_append, String.toByteArray_append]
    have hskip := ByteArray.extract_append_size_add (a := front.toByteArray)
      (b := word.toByteArray ++ back.toByteArray) (i := 0) (j := word.utf8ByteSize)
    rw [Nat.add_zero] at hskip
    exact hskip.trans (ByteArray.extract_append_eq_left rfl)

/-- A type is found at a position exactly if its spelling starts there. -/
theorem typeAt?_eq_some_iff {text : String} {start stop : Nat} {t : Ty} :
    typeAt? text start = some (t, stop) ↔ t.IsSpelled ∧ ∃ front back,
      text = front ++ t.descriptor ++ back ∧ front.utf8ByteSize = start ∧
        start + t.descriptor.utf8ByteSize = stop := by
  have hread : typeAt? text start = some (t, stop) ↔ ∃ ahead rest,
      dropBytes? start text.toList = some ahead ∧ Ty.read? ahead = some (t, rest) ∧
        byteLength text.toList - byteLength rest = stop := by
    simp only [typeAt?, Option.bind_eq_bind, Option.bind_eq_some_iff, Option.pure_def,
      Option.some.injEq, Prod.mk.injEq, Prod.exists]
    grind
  rw [hread]
  constructor
  · rintro ⟨ahead, rest, hdrop, hspelled, rfl⟩
    obtain ⟨front, htext, rfl⟩ := dropBytes?_eq_some_iff.1 hdrop
    obtain ⟨ht, rfl⟩ := Ty.read?_eq_some_iff.1 hspelled
    have htext' : text = .ofList front ++ t.descriptor ++ .ofList rest := by
      rw [← String.toList_inj, htext]
      simp
    refine ⟨ht, _, _, htext', (byteLength_eq front).symm, ?_⟩
    rw [byteLength_toList, byteLength_eq, byteLength_eq, htext']
    simp only [String.utf8ByteSize_append]
    omega
  · rintro ⟨ht, front, back, rfl, rfl, rfl⟩
    refine ⟨t.descriptor.toList ++ back.toList, back.toList,
      dropBytes?_eq_some_iff.2 ⟨front.toList, by simp, byteLength_toList front⟩,
      Ty.read?_descriptor_append ht _, ?_⟩
    rw [byteLength_toList, byteLength_toList]
    simp only [String.utf8ByteSize_append]
    omega

end Descriptor

namespace Ty

/-- No type is spelled by nothing. -/
theorem IsSpelled.descriptor_ne_empty {t : Ty} (ht : t.IsSpelled) : t.descriptor ≠ "" := by
  intro h
  have hread := read?_descriptor_append ht []
  rw [h] at hread
  simp [read?] at hread

/-- Reading descriptors is the inverse of writing them. A text reads as a type exactly if the type can be
spelled and the text is its descriptor; and at a position of a text stands a type that goes up to a second
position exactly if the type can be spelled and the bytes between the two are its descriptor. -/
theorem reads_exactly_descriptors (t : Ty) (text : String) (start stop : Nat) :
    (ofDescriptor? text = some t ↔ t.IsSpelled ∧ t.descriptor = text) ∧
    (Descriptor.typeAt? text start = some (t, stop) ↔
      t.IsSpelled ∧ start < text.utf8ByteSize ∧ stop ≤ text.utf8ByteSize ∧
        text.toByteArray.extract start stop = t.descriptor.toByteArray) := by
  refine ⟨ofDescriptor?_eq_some_iff, ?_⟩
  rw [Descriptor.typeAt?_eq_some_iff]
  refine and_congr_right fun ht => ?_
  have hword := ht.descriptor_ne_empty
  constructor
  · intro hspan
    obtain ⟨hstop, hbytes⟩ := (Descriptor.extract_eq_iff hword).2 hspan
    obtain ⟨front, back, -, rfl, rfl⟩ := hspan
    have hpos := mt String.utf8ByteSize_eq_zero_iff.1 hword
    exact ⟨by omega, hstop, hbytes⟩
  · rintro ⟨-, hstop, hbytes⟩
    exact (Descriptor.extract_eq_iff hword).1 ⟨hstop, hbytes⟩

end Ty

end JvmDecompiler
