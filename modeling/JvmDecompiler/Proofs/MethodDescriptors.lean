import JvmDecompiler.Proofs.Descriptors

/-!
# Descriptors of methods

The first closing parenthesis of a text says where the parameters end and where the result starts. The
parameters themselves are read up to that parenthesis or past it, and nobody compares where they end with
where it stands.

Without a closing parenthesis in the class names of the parameters the two places are the same, and a text
reads as a method exactly if it is the descriptor of the method. Otherwise the descriptor of a method is
never read as that method. What can be read then is a text in which the last parameter runs through the
parenthesis to the end, so that its class name ends with the descriptor of the result
(`MethodTy.reads_iff_descriptor_or_overrun`).
-/

namespace JvmDecompiler

/-! ## Parameters -/

namespace Descriptor

/-- The descriptors of some types, one behind the other. -/
def spelling (ts : List Ty) : List Char := ts.flatMap (·.descriptor.toList)

@[simp]
theorem spelling_nil : spelling [] = [] := rfl

/-- Types are spelled one behind the other. -/
@[simp]
theorem spelling_cons (t : Ty) (ts : List Ty) :
    spelling (t :: ts) = t.descriptor.toList ++ spelling ts := List.flatMap_cons

/-- Two lists of types are spelled one behind the other. -/
@[simp]
theorem spelling_append (ts us : List Ty) : spelling (ts ++ us) = spelling ts ++ spelling us :=
  List.flatMap_append

/-- The spelling of some types is that of their descriptors together. -/
@[simp]
theorem flatMap_toList_descriptor (ts : List Ty) :
    (ts.map Ty.descriptor).flatMap String.toList = spelling ts := List.flatMap_map ..

/-- Parameters are read as the first one and the others behind it. -/
theorem readParameters?_eq_cons_iff {left : Nat} {text : List Char} {t : Ty} {ts : List Ty} :
    readParameters? left text = some (t :: ts) ↔ left ≠ 0 ∧ ∃ rest,
      Ty.read? text = some (t, rest) ∧ readParameters? (left - t.descriptor.length) rest = some ts := by
  rw [readParameters?]
  split
  · simp_all
  · rename_i hleft
    split
    · rename_i u rest hread
      simp only [hread, Option.map_eq_some_iff, List.cons.injEq, Option.some.injEq, Prod.mk.injEq]
      constructor
      · rintro ⟨_, hts, rfl, rfl⟩
        exact ⟨hleft, rest, ⟨rfl, rfl⟩, hts⟩
      · rintro ⟨-, _, ⟨rfl, rfl⟩, hts⟩
        exact ⟨_, hts, rfl, rfl⟩
    · simp_all

/-- Types are read until the descriptors of those read are long enough. -/
theorem readParameters?_eq_some_iff {left : Nat} {text : List Char} {ts : List Ty} :
    readParameters? left text = some ts ↔ (∀ t ∈ ts, t.IsSpelled) ∧ spelling ts <+: text ∧
      left ≤ (spelling ts).length ∧ (ts ≠ [] → (spelling ts.dropLast).length < left) := by
  -- type by type: the first one is read if anything is left to read, and the others from where it ends
  induction ts generalizing left text with
  | nil =>
    rw [readParameters?]
    split
    · simp_all
    · split <;> simp_all
  | cons t ts ih =>
    have hstart : spelling (t :: ts) <+: text ↔
        ∃ rest, text = t.descriptor.toList ++ rest ∧ spelling ts <+: rest := by
      constructor
      · rintro ⟨back, rfl⟩
        exact ⟨spelling ts ++ back, by simp, List.prefix_append ..⟩
      · rintro ⟨rest, rfl, hrest⟩
        simpa using hrest
    have hlength : (spelling (t :: ts)).length = t.descriptor.length + (spelling ts).length := by
      rw [spelling_cons, List.length_append, String.length_toList]
    -- the bound on the last type passes to the others, less the length of the first
    have hstop : (t :: ts ≠ [] → (spelling (t :: ts).dropLast).length < left) ↔
        left ≠ 0 ∧ (ts ≠ [] → (spelling ts.dropLast).length < left - t.descriptor.length) := by
      cases ts with
      | nil => simp [Nat.pos_iff_ne_zero]
      | cons u us =>
        simp only [List.dropLast_cons_cons, spelling_cons, List.length_append, String.length_toList,
          ne_eq, reduceCtorEq, not_false_eq_true, forall_const]
        omega
    rw [readParameters?_eq_cons_iff, hstart, hlength, hstop]
    simp only [Ty.read?_eq_some_iff, ih, List.forall_mem_cons]
    constructor
    · rintro ⟨hleft, rest, ⟨ht, htext⟩, hts, hrest, hlong, hshort⟩
      exact ⟨⟨ht, hts⟩, ⟨rest, htext, hrest⟩, by omega, hleft, hshort⟩
    · rintro ⟨⟨ht, hts⟩, ⟨rest, htext, hrest⟩, hlong, hleft, hshort⟩
      exact ⟨hleft, rest, ⟨ht, htext⟩, hts, hrest, by omega, hshort⟩

end Descriptor

/-! ## Where the parameters end -/

namespace MethodTy

/-- The methods whose parameters and result a descriptor can spell. -/
def IsSpelled (m : MethodTy) : Prop := (∀ t ∈ m.parameters, t.IsSpelled) ∧ m.result.IsSpelled

/-- A descriptor is the parameters in parentheses and the result. -/
theorem toList_descriptor (m : MethodTy) :
    m.descriptor.toList =
      '(' :: (Descriptor.spelling m.parameters ++ ')' :: m.result.descriptor.toList) := by
  simp [descriptor]

/-- The parameters are read up to the first closing parenthesis or past it, and the result is what stands
behind that parenthesis. -/
theorem ofDescriptor?_eq_some_iff {text : String} {m : MethodTy} :
    ofDescriptor? text = some m ↔ m.result.IsSpelled ∧ ∃ front, ')' ∉ front ∧
      text.toList = '(' :: (front ++ ')' :: m.result.descriptor.toList) ∧
        Descriptor.readParameters? front.length (front ++ ')' :: m.result.descriptor.toList) =
          some m.parameters := by
  constructor
  · intro h
    unfold ofDescriptor? at h
    split at h
    -- the text has an opening parenthesis, and behind it a closing one
    · rename_i body htext
      split at h
      · cases h
      · rename_i c back hback
        obtain ⟨rfl, hfront, hbody⟩ := Descriptor.cut_iff.1 ⟨rfl, hback⟩
        simp only [Option.bind_eq_bind, Option.bind_eq_some_iff] at h
        obtain ⟨parameters, hparameters, ⟨result, rest⟩, hresult, hm⟩ := h
        -- what is behind the closing one is the result and nothing else
        split at hm
        · rename_i he
          obtain ⟨rfl, rfl⟩ := Prod.mk.inj he
          obtain rfl := Option.some.inj hm
          obtain ⟨hspelled, rfl⟩ := Ty.read?_eq_some_iff.1 hresult
          rw [List.append_nil] at hbody
          refine ⟨hspelled, _, hfront, ?_, ?_⟩ <;> rw [← hbody]
          · exact htext
          · exact hparameters
        · cases hm
    · cases h
  · rintro ⟨hspelled, front, hfront, htext, hparameters⟩
    obtain ⟨htake, hdrop⟩ := Descriptor.cut_iff.2
      ⟨rfl, hfront, Eq.refl (front ++ ')' :: m.result.descriptor.toList)⟩
    have hresult := Ty.read?_descriptor_append hspelled []
    rw [List.append_nil] at hresult
    rw [ofDescriptor?, htext]
    simp only [hdrop, htake, hparameters, hresult, Option.bind_eq_bind, Option.bind_some]

end MethodTy

/-! ## A closing parenthesis inside a descriptor -/

namespace Ty

/-- A semicolon stands only at the end of a descriptor. -/
theorem IsSpelled.eq_nil_of_semicolon {t : Ty} (ht : t.IsSpelled) {front back : List Char}
    (h : t.descriptor.toList = front ++ ';' :: back) : back = [] := by
  induction t generalizing front with
  | reference name =>
    obtain ⟨-, hsemi⟩ := ht
    rw [toList_descriptor_reference, ← List.cons_append] at h
    -- the semicolon is the last one of the class, or would be in its name
    obtain ⟨more, rfl, hmore⟩ | ⟨more, hname, hmore⟩ := List.append_eq_append_iff.1 h
    · have hlength := congrArg List.length hmore
      simp only [List.length_append, List.length_cons, List.length_nil] at hlength
      exact List.length_eq_zero_iff.1 (by omega)
    · cases more with
      | nil => simpa using hmore
      | cons c more =>
        obtain rfl : ';' = c := (List.cons.inj hmore).1
        have hmem : ';' ∈ 'L' :: name.toList := hname ▸ by simp
        exact absurd ((List.mem_cons.1 hmem).resolve_left (by decide)) hsemi
  | array element ih =>
    rw [toList_descriptor_array] at h
    cases front with
    | nil => simp at h
    | cons c front => exact ih ht (List.cons.inj h).2
  | null | unknown => exact ht.elim
  | _ =>
    have hmem : ';' ∈ front ++ ';' :: back := by simp
    rw [← h] at hmem
    simp [descriptor] at hmem

/-- A closing parenthesis stands in a descriptor only within the name of a class. -/
theorem IsSpelled.ends_with_semicolon {t : Ty} (ht : t.IsSpelled) (h : ')' ∈ t.descriptor.toList) :
    ∃ front, t.descriptor.toList = front ++ [';'] := by
  induction t with
  | reference name => exact ⟨'L' :: name.toList, toList_descriptor_reference name⟩
  | array element ih =>
    obtain ⟨front, hfront⟩ := ih ht (by simpa using h)
    exact ⟨'[' :: front, by simp [hfront]⟩
  | null | unknown => exact ht.elim
  | _ => simp [descriptor] at h

/-- What stands behind a closing parenthesis in one descriptor and in front of another is all of the
other. -/
theorem IsSpelled.eq_of_shared_end {t result : Ty} (ht : t.IsSpelled) (hresult : result.IsSpelled)
    {inside behind : List Char} (h : t.descriptor.toList = inside ++ ')' :: behind)
    (hstart : behind <+: result.descriptor.toList) : behind = result.descriptor.toList := by
  obtain ⟨front, hfront⟩ := ht.ends_with_semicolon (h ▸ by simp)
  rw [h] at hfront
  obtain ⟨more, hmore⟩ := hstart
  rcases List.eq_nil_or_concat behind with rfl | ⟨name, c, hname⟩
  · simpa using List.append_inj_right' hfront rfl
  · rw [List.concat_eq_append] at hname
    subst hname
    obtain rfl : c = ';' := by
      rw [← List.cons_append, ← List.append_assoc] at hfront
      simpa using List.append_inj_right' hfront rfl
    have hsemi : result.descriptor.toList = name ++ ';' :: more := by
      rw [← hmore]
      simp
    have hnil := hresult.eq_nil_of_semicolon hsemi
    rw [← hmore, hnil, List.append_nil]

/-- No type is spelled with a parenthesis at its start. -/
theorem IsSpelled.head_ne_parenthesis {t : Ty} (ht : t.IsSpelled) {front back : List Char}
    (h : t.descriptor.toList = front ++ ')' :: back) : front ≠ [] := by
  rintro rfl
  have hread := read?_descriptor_append ht []
  rw [h] at hread
  simp [read?] at hread

end Ty

namespace Descriptor

/-- A letter in the spelling of some types is one of a type. -/
theorem mem_spelling {c : Char} {ts : List Ty} :
    c ∈ spelling ts ↔ ∃ t ∈ ts, c ∈ t.descriptor.toList := List.mem_flatMap

/-- The parameters in front of a closing parenthesis are those spelled there, or the last of them goes on
behind the parenthesis. -/
theorem readParameters?_parenthesis_iff {front back : List Char} {ts : List Ty} :
    readParameters? front.length (front ++ ')' :: back) = some ts ↔ (∀ t ∈ ts, t.IsSpelled) ∧
      (spelling ts = front ∨ ∃ init last inside behind, ts = init ++ [last] ∧
        front = spelling init ++ inside ∧ last.descriptor.toList = inside ++ ')' :: behind ∧
        behind <+: back) := by
  rw [readParameters?_eq_some_iff]
  refine and_congr_right fun hts => ?_
  constructor
  · rintro ⟨⟨rest, hstart⟩, hlong, hshort⟩
    -- the types spell no more than the front, or run over its end
    obtain ⟨more, rfl, -⟩ | ⟨more, hspelling, hmore⟩ := List.append_eq_append_iff.1 hstart
    · left
      rw [List.length_append] at hlong
      rw [List.length_eq_zero_iff.1 (by omega : more.length = 0), List.append_nil]
    cases more with
    | nil => exact .inl (by simpa using hspelling)
    | cons c behind =>
      right
      obtain ⟨rfl, rfl⟩ := List.cons.inj hmore
      have hne : ts ≠ [] := by
        rintro rfl
        simp at hspelling
      obtain ⟨init, last, rfl⟩ : ∃ init last, ts = init ++ [last] :=
        ⟨_, _, (List.dropLast_concat_getLast hne).symm⟩
      replace hshort := hshort hne
      rw [List.dropLast_concat] at hshort
      rw [spelling_append] at hspelling
      -- only the last type can run over the end: those before it are shorter than the front
      obtain ⟨inside, rfl, hlast⟩ | ⟨inside, hinit, -⟩ := List.append_eq_append_iff.1 hspelling
      · exact ⟨init, last, inside, behind, rfl, rfl, by simpa using hlast, List.prefix_append ..⟩
      · rw [hinit, List.length_append] at hshort
        omega
  · rintro (rfl | ⟨init, last, inside, behind, rfl, rfl, hlast, hbehind⟩)
    · refine ⟨List.prefix_append .., Nat.le_refl _, fun hne => ?_⟩
      obtain ⟨init, last, rfl⟩ : ∃ init last, ts = init ++ [last] :=
        -- the last type is not empty, so that those before it are shorter
        ⟨_, _, (List.dropLast_concat_getLast hne).symm⟩
      have hlast := (hts last (by simp)).descriptor_ne_empty
      simpa [List.length_pos_iff] using hlast
    · have hinside := (hts last (by simp)).head_ne_parenthesis hlast
      -- the last type reaches into the front, since no type starts with a parenthesis
      have hpos := List.length_pos_iff.2 hinside
      refine ⟨?_, ?_, fun _ => ?_⟩
      · simpa [hlast] using hbehind
      · simp [hlast]
      · simpa using hpos

end Descriptor

namespace MethodTy

/-- What a text is read as. Either it is the descriptor of a method, and the descriptors of the parameters
hold no closing parenthesis. Or the first closing parenthesis stands in the class name of the last parameter,
which ends the text, and what stands behind it there is the descriptor of the result as well. -/
theorem reads_iff_descriptor_or_overrun (text : String) (m : MethodTy) :
    ofDescriptor? text = some m ↔ m.IsSpelled ∧
      ((∀ t ∈ m.parameters, ')' ∉ t.descriptor.toList) ∧ text = m.descriptor ∨
      ∃ init last front, m.parameters = init ++ [last] ∧ (∀ t ∈ init, ')' ∉ t.descriptor.toList) ∧
        ')' ∉ front.toList ∧ last.descriptor = front ++ ")" ++ m.result.descriptor ∧
        text = "(" ++ String.join (m.parameters.map Ty.descriptor)) := by
  rw [ofDescriptor?_eq_some_iff]
  simp only [Descriptor.readParameters?_parenthesis_iff, IsSpelled]
  constructor
  · rintro ⟨hresult, front, hfront, htext, hparameters, rfl | hoverrun⟩
    -- the parameters spell the front exactly
    · refine ⟨⟨hparameters, hresult⟩, .inl ⟨?_, ?_⟩⟩
      · simpa [Descriptor.mem_spelling] using hfront
      · rw [← String.toList_inj, toList_descriptor, htext]
    · obtain ⟨init, last, inside, behind, hinit, rfl, hlast, hbehind⟩ := hoverrun
      have hspelled : last.IsSpelled := hparameters last (by simp [hinit])
      -- the last parameter and the result are spelled to the same end, so the one ends with the other
      obtain rfl := hspelled.eq_of_shared_end hresult hlast hbehind
      rw [List.mem_append, not_or] at hfront
      refine ⟨⟨hparameters, hresult⟩, .inr ⟨init, last, .ofList inside, hinit, ?_, ?_, ?_, ?_⟩⟩
      · simpa [Descriptor.mem_spelling] using hfront.1
      · simpa using hfront.2
      · rw [← String.toList_inj, hlast]
        simp
      · rw [← String.toList_inj, htext, hinit]
        simp [hlast]
  · rintro ⟨⟨hparameters, hresult⟩, ⟨hclosing, rfl⟩ | hoverrun⟩
    · refine ⟨hresult, Descriptor.spelling m.parameters, ?_, toList_descriptor m, hparameters, .inl rfl⟩
      simpa [Descriptor.mem_spelling] using hclosing
    · obtain ⟨init, last, front, hinit, hclosing, hfront, hlast, rfl⟩ := hoverrun
      have hlast' := congrArg String.toList hlast
      simp only [String.toList_append] at hlast'
      refine ⟨hresult, Descriptor.spelling init ++ front.toList, ?_, ?_, hparameters, .inr
        ⟨init, last, front.toList, _, hinit, rfl, by simpa using hlast', List.prefix_refl _⟩⟩
      · simpa [Descriptor.mem_spelling] using ⟨hclosing, hfront⟩
      · simp [hinit, hlast']

/-- The descriptor of a method whose parameter is of the class `a)b` is not read, and a text that is the
descriptor of no method is. -/
theorem parenthesis_in_className :
    let method : MethodTy := ⟨[.reference "a)b"], .void⟩
    let misread : MethodTy := ⟨[.reference "a)LI"], .reference "I"⟩
    (method.IsSpelled ∧ method.descriptor = "(La)b;)V" ∧ ofDescriptor? "(La)b;)V" = none) ∧
      ofDescriptor? "(La)LI;" = some misread ∧ misread.descriptor ≠ "(La)LI;" := by
  refine ⟨⟨?_, by decide, by decide +kernel⟩, by decide +kernel, by decide⟩
  simp [IsSpelled, Ty.IsSpelled]

end MethodTy

end JvmDecompiler
