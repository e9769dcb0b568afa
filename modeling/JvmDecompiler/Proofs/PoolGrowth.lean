import JvmDecompiler.ConstantPool.Known
import Mathlib

/-!
# A pool forgets nothing

Whatever is asked of a pool, and whether the pool can give it or not, its slots stay as they are and
new ones only come behind them. What was once returned for a text, class, name-and-type pair, field or
method is what every later request for it returns, a frozen or full pool included.

The shape of the argument:

* `Consistent`: the three maps of a pool say the truth about its slots, and the two of known names
  only repeat what `index` says.
* `Grows`: what one pool holds and finds, another still holds and finds. A preorder.
* `Keeps x Q`: the computation `x` leaves a consistent pool consistent and only lets it grow, even if
  it fails half-way. `Finds x Q` adds that `x` returns the same again, without a change, from every
  pool that has grown out of the one it left.

`Finds` is closed under `bind`, so that it holds of the compound requests as soon as it holds of
`intern`; a run of operations follows by induction. A relation between pools holds across a compound request as
soon as it holds across `intern`, in the same way (`IsStep`).
-/

namespace JvmDecompiler.ConstantPool

/-- A pool of at most the largest size, whose maps lead to what is in its slots. -/
structure Consistent (p : ConstantPool) : Prop where
  size_le : p.size ≤ maxSize
  get_of_find : ∀ {c i}, p.find? c = some i → p.get? i = some c
  find_of_knownText : ∀ {name : KnownName} {i}, p.knownTexts[name]? = some i →
    p.find? (.utf8 name.text) = some i
  find_of_knownClass : ∀ {name : KnownName} {i}, p.knownClasses[name]? = some i →
    ∃ n, p.find? (.utf8 name.text) = some n ∧ p.find? (.classRef n) = some i

/-- What the first pool holds and finds, the second holds and finds in the same slots. -/
structure Grows (p q : ConstantPool) : Prop where
  slots : p.slots.toList <+: q.slots.toList
  find : ∀ {c i}, p.find? c = some i → q.find? c = some i
  knownText : ∀ {name : KnownName} {i}, p.knownTexts[name]? = some i → q.knownTexts[name]? = some i
  knownClass : ∀ {name : KnownName} {i}, p.knownClasses[name]? = some i →
    q.knownClasses[name]? = some i

variable {p q z : ConstantPool} {α β : Type}

/-- A pool has grown from itself. -/
theorem Grows.refl (p : ConstantPool) : p.Grows p := ⟨List.prefix_refl _, id, id, id⟩

/-- What has grown twice has grown. -/
theorem Grows.trans (h : p.Grows q) (h' : q.Grows z) : p.Grows z :=
  ⟨h.slots.trans h'.slots, h'.find ∘ h.find, h'.knownText ∘ h.knownText,
    h'.knownClass ∘ h.knownClass⟩

/-- A constant stays in its slot. -/
theorem Grows.get? (h : p.Grows q) {i : UInt16} {c : Constant} (hc : p.get? i = some c) :
    q.get? i = some c := by
  obtain ⟨more, hmore⟩ := h.slots
  simp only [ConstantPool.get?, Option.join_eq_some_iff, ← Array.getElem?_toList] at hc ⊢
  rw [← hmore, List.getElem?_append_left (List.getElem?_eq_some_iff.1 hc).1, hc]

/-! ## Pools to start from -/

/-- The empty pool is consistent. -/
theorem Consistent.empty : Consistent empty where
  size_le := by decide
  get_of_find h := by simp [find?, ConstantPool.empty] at h
  find_of_knownText h := by simp [ConstantPool.empty] at h
  find_of_knownClass h := by simp [ConstantPool.empty] at h

/-- The index of a list of slots leads to the slots. -/
theorem getElem?_of_indexOfSlots {slots : List (Option Constant)} (hsize : slots.length ≤ maxSize)
    (c : Constant) (i : UInt16) (h : (indexOfSlots slots)[c]? = some i) :
    slots[i.toNat]? = some (some c) := by
  revert c i h
  -- the invariant of the fold: what the index has for a constant is a slot that holds it
  refine List.foldlRecOn (motive := fun index : Std.HashMap Constant UInt16 =>
    ∀ (c : Constant) (i : UInt16), index[c]? = some i → slots[i.toNat]? = some (some c))
    slots.zipIdx _ ?_ ?_
  · intro c i h
    simp at h
  rintro index hindex ⟨slot, k⟩ hk c i h
  have hslot : slots[k]? = some slot := List.mem_zipIdx_iff_getElem?.1 hk
  have hround : k.toUInt16.toNat = k := by
    have := (List.getElem?_eq_some_iff.1 hslot).1
    exact UInt16.toNat_ofNat_of_lt' (by simp only [maxSize] at hsize; simp [UInt16.size]; omega)
  rcases slot with _ | d
  · exact hindex c i h
  simp only at h
  split at h
  -- a constant that is new to the index is noted with its own slot
  · rw [Std.HashMap.getElem?_insertIfNew] at h
    split at h
    · rename_i hnew
      obtain rfl : d = c := by simpa using hnew.1
      obtain rfl := Option.some.inj h
      rwa [hround]
    · exact hindex c i h
  · exact hindex c i h

/-- A pool that is filled from its slots is consistent. -/
theorem Consistent.ofSlots {slots : List (Option Constant)} (hsize : slots.length ≤ maxSize) :
    Consistent (.ofSlots slots) := by
  have hfill : (if slots.isEmpty then [none] else slots).length ≤ maxSize := by
    split
    · decide
    · exact hsize
  refine ⟨by simpa [ConstantPool.ofSlots, size] using hfill, fun h => ?_, fun h => ?_, fun h => ?_⟩
  · simpa [ConstantPool.ofSlots, ConstantPool.get?] using
      congrArg Option.join (getElem?_of_indexOfSlots hfill _ _ h)
  · simp [ConstantPool.ofSlots] at h
  · simp [ConstantPool.ofSlots] at h

/-! ## Computations that only let a pool grow -/

/-- From a consistent pool, `x` comes to a consistent pool that has grown, and what it returns there
satisfies `Q`. -/
def Keeps (x : Build α) (Q : ConstantPool → α → Prop) : Prop :=
  ∀ p, p.Consistent → (x.run p).2.Consistent ∧ p.Grows (x.run p).2 ∧
    ∀ a, (x.run p).1 = .ok a → Q (x.run p).2 a

/-- `x` keeps a pool, and what it returns it returns again, without a change, wherever its pool has
grown to; `Q` holds there of what it returns. -/
def Finds (x : Build α) (Q : ConstantPool → α → Prop) : Prop :=
  Keeps x fun q a => ∀ z, z.Consistent → q.Grows z → x.run z = (.ok a, z) ∧ Q z a

/-- A request that fails leaves the pool as it is then; one that succeeds is followed by the next. -/
theorem run_bind (x : Build α) (f : α → Build β) (p : ConstantPool) :
    (x >>= f).run p = match x.run p with
      | (.ok a, q) => (f a).run q
      | (.error e, q) => (.error e, q) := by
  show (match x.run p with | (r, q) => ExceptT.bindCont f r q) = _
  rcases x.run p with ⟨_ | a, q⟩ <;> rfl

/-- A request that fails returns nothing that could be wrong. -/
theorem Finds.throw {Q : ConstantPool → α → Prop} (e : PoolError) : Finds (throw e) Q :=
  fun p hp => ⟨hp, .refl p, fun _ h => nomatch h⟩

/-- A request made of two that find what they return finds what it returns. -/
theorem Finds.bind {x : Build α} {f : α → Build β} {Q : ConstantPool → α → Prop}
    {R : ConstantPool → β → Prop} {S : α → ConstantPool → β → Prop} (hx : Finds x Q)
    (hf : ∀ a, Finds (f a) (S a)) (hR : ∀ z a b, z.Consistent → Q z a → S a z b → R z b) :
    Finds (x >>= f) R := by
  intro p hp
  obtain ⟨hq, hpq, hfound⟩ := hx p hp
  rw [run_bind]
  rcases hrun : x.run p with ⟨e | a, q⟩
  · rw [hrun] at hq hpq
    exact ⟨hq, hpq, fun _ h => nomatch h⟩
  · rw [hrun] at hq hpq hfound
    obtain ⟨hq', hqq', hfound'⟩ := hf a q hq
    refine ⟨hq', hpq.trans hqq', fun b hb z hz hgrows => ?_⟩
    obtain ⟨hxz, hQ⟩ := hfound a rfl z hz (hqq'.trans hgrows)
    obtain ⟨hfz, hS⟩ := hfound' b hb z hz hgrows
    exact ⟨by rw [run_bind, hxz]; exact hfz, hR z a b hz hQ hS⟩

/-- What is known of the result may be weakened. -/
theorem Finds.mono {x : Build α} {Q R : ConstantPool → α → Prop} (hx : Finds x Q)
    (h : ∀ z a, z.Consistent → Q z a → R z a) : Finds x R := by
  intro p hp
  obtain ⟨hq, hpq, hfound⟩ := hx p hp
  refine ⟨hq, hpq, fun a ha z hz hgrows => ?_⟩
  obtain ⟨hxz, hQ⟩ := hfound a ha z hz hgrows
  exact ⟨hxz, h z a hz hQ⟩

/-- A request that finds what it returns keeps the pool. -/
theorem Finds.keeps {x : Build α} {Q : ConstantPool → α → Prop} (hx : Finds x Q) : Keeps x Q := by
  intro p hp
  obtain ⟨hq, hpq, hfound⟩ := hx p hp
  exact ⟨hq, hpq, fun a ha => (hfound a ha _ hq (.refl _)).2⟩

/-! ## Appending -/

/-- A constant is appended unless the pool is closed or full. -/
theorem run_append (c : Constant) (p : ConstantPool) :
    (append c).run p =
      if p.isFrozen then (.error .frozen, p)
      else if p.size + c.slots > maxSize then (.error .overflow, p)
      else (.ok p.size.toUInt16, { p with slots := pushSlots p.slots c }) := by
  rw [append, run_bind]
  show (if p.isFrozen then throw .frozen else if p.size + c.slots > maxSize then throw .overflow
    else _ : Build UInt16).run p = _
  split
  · rfl
  · split <;> rfl

/-- A constant takes one slot, or two if it is wide, the second of which stays empty. -/
theorem toList_pushSlots (slots : Array (Option Constant)) (c : Constant) :
    (pushSlots slots c).toList = slots.toList ++ some c :: if c.isWide then [none] else [] := by
  simp only [pushSlots]
  split <;> simp_all

/-- The pool grows by the slots of the constant. -/
theorem size_pushSlots (slots : Array (Option Constant)) (c : Constant) :
    (pushSlots slots c).size = slots.size + c.slots := by
  simp only [pushSlots, Constant.slots]
  split <;> simp

/-- A pool with one more constant behind its last slot. -/
theorem Consistent.push (hp : p.Consistent) {c : Constant} (hsize : p.size + c.slots ≤ maxSize) :
    Consistent { p with slots := pushSlots p.slots c } ∧
      p.Grows { p with slots := pushSlots p.slots c } ∧
      get? { p with slots := pushSlots p.slots c } p.size.toUInt16 = some c := by
  have hgrows : p.Grows { p with slots := pushSlots p.slots c } :=
    ⟨by rw [toList_pushSlots]; exact List.prefix_append .., id, id, id⟩
  refine ⟨⟨?_, fun h => hgrows.get? (hp.get_of_find h), hp.find_of_knownText,
    hp.find_of_knownClass⟩, hgrows, ?_⟩
  · simpa [size, size_pushSlots] using hsize
  · have hround : p.size.toUInt16.toNat = p.slots.toList.length := by
      have : 1 ≤ c.slots := by simp only [Constant.slots]; split <;> decide
      simp only [maxSize] at hsize
      simp [size] at hsize ⊢
      omega
    rw [ConstantPool.get?, ← Array.getElem?_toList, toList_pushSlots, hround,
      List.getElem?_append_right (Nat.le_refl _)]
    simp

/-- An appended constant is in the slot that is returned. -/
theorem keeps_append (c : Constant) : Keeps (append c) fun q i => q.get? i = some c := by
  intro p hp
  rw [run_append]
  split
  · exact ⟨hp, .refl p, fun _ h => nomatch h⟩
  split
  · exact ⟨hp, .refl p, fun _ h => nomatch h⟩
  · obtain ⟨hq, hpq, hget⟩ := hp.push (c := c) (by omega)
    exact ⟨hq, hpq, fun i hi => Except.ok.inj hi ▸ hget⟩

/-! ## Requests that find what was asked for before -/

section Remembered

variable {look : ConstantPool → Option UInt16} {make : Build UInt16}
  {note : UInt16 → ConstantPool → ConstantPool}

/-- A request that is remembered is not made again. -/
theorem run_remembered (p : ConstantPool) :
    (remembered look make note).run p = match look p with
      | some i => (.ok i, p)
      | none => match make.run p with
        | (.ok i, q) => (.ok i, note i q)
        | (.error e, q) => (.error e, q) := by
  rw [remembered, run_bind]
  show (match look p with | some i => pure i | none => _ : Build UInt16).run p = _
  rcases look p with _ | i
  · show (make >>= fun i => modify (note i) >>= fun _ => pure i : Build UInt16).run p = _
    rw [run_bind]
    rcases make.run p with ⟨_ | i, q⟩ <;> rfl
  · rfl

/-- A request that looks up what it remembers finds it again, if what is remembered is right, is
not lost, and noting a new slot makes it so. -/
theorem finds_remembered {M Q : ConstantPool → UInt16 → Prop} (hmake : Keeps make M)
    (hlook : ∀ p i, p.Consistent → look p = some i → Q p i)
    (hgrows : ∀ p q i, p.Grows q → look p = some i → look q = some i)
    (hnote : ∀ p i, p.Consistent → look p = none → (make.run p).1 = .ok i →
      (note i (make.run p).2).Consistent ∧ (make.run p).2.Grows (note i (make.run p).2) ∧
        look (note i (make.run p).2) = some i) :
    Finds (remembered look make note) Q := by
  have hagain : ∀ z i, look z = some i → (remembered look make note).run z = (.ok i, z) :=
    fun z i h => by rw [run_remembered, h]
  intro p hp
  rw [run_remembered]
  rcases hseen : look p with _ | i
  · obtain ⟨hq, hpq, -⟩ := hmake p hp
    have hnoted := hnote p
    rcases hrun : make.run p with ⟨e | i, q⟩
    · rw [hrun] at hq hpq
      exact ⟨hq, hpq, fun _ h => nomatch h⟩
    · rw [hrun] at hq hpq hnoted
      obtain ⟨hn, hqn, hfound⟩ := hnoted i hp hseen rfl
      refine ⟨hn, hpq.trans hqn, fun j hj z hz hnz => ?_⟩
      obtain rfl : i = j := Except.ok.inj hj
      have hz' := hgrows _ z i hnz hfound
      exact ⟨hagain z i hz', hlook z i hz hz'⟩
  · refine ⟨hp, .refl p, fun j hj z hz hpz => ?_⟩
    obtain rfl : i = j := Except.ok.inj hj
    have hz' := hgrows p z i hpz hseen
    exact ⟨hagain z i hz', hlook z i hz hz'⟩

end Remembered

/-- An entry of a map stays if a key with no entry gets one. -/
theorem getElem?_insert_of_none {κ : Type} [BEq κ] [LawfulBEq κ] [Hashable κ]
    {m : Std.HashMap κ UInt16} {k d : κ} {i j : UInt16} (hnew : ∀ i', m[k]? = some i' → i' = i)
    (h : m[d]? = some j) : (m.insert k i)[d]? = some j := by
  rw [Std.HashMap.getElem?_insert]
  split
  · obtain rfl : k = d := by simpa using ‹(k == d) = true›
    rw [hnew j h]
  · exact h

/-- A constant that is found nowhere yet is noted with its slot. -/
theorem Consistent.noteConstant (hp : p.Consistent) {c : Constant} {i : UInt16}
    (hnew : p.find? c = none) (hget : p.get? i = some c) :
    (noteConstant c i p).Consistent ∧ p.Grows (noteConstant c i p) := by
  have hfind : ∀ {d j}, p.find? d = some j → (ConstantPool.noteConstant c i p).find? d = some j :=
    getElem?_insert_of_none fun j h => by simp [find?, h] at hnew
  refine ⟨⟨hp.size_le, fun {d j} h => ?_, fun h => hfind (hp.find_of_knownText h), fun h => ?_⟩,
    List.prefix_refl _, hfind, id, id⟩
  · rw [find?, ConstantPool.noteConstant, Std.HashMap.getElem?_insert] at h
    split at h
    · obtain rfl : c = d := by simpa using ‹(c == d) = true›
      exact Option.some.inj h ▸ hget
    · exact hp.get_of_find h
  · obtain ⟨n, htext, hclass⟩ := hp.find_of_knownClass h
    exact ⟨n, hfind htext, hfind hclass⟩

/-- To append a constant does not note it in the index. -/
theorem find?_run_append (c d : Constant) (p : ConstantPool) :
    ((append c).run p).2.find? d = p.find? d := by
  rw [run_append]
  split
  · rfl
  · split <;> rfl

/-- An interned constant is found from then on. -/
theorem finds_intern (c : Constant) : Finds (intern c) fun z i => z.find? c = some i := by
  refine finds_remembered (keeps_append c) (fun _ _ _ h => h) (fun _ _ _ h => h.find) ?_
  intro p i hp hnew hi
  obtain ⟨hq, -, hget⟩ := keeps_append c p hp
  obtain ⟨hn, hqn⟩ := hq.noteConstant ((find?_run_append c c p).trans hnew) (hget i hi)
  exact ⟨hn, hqn, by simp [noteConstant, find?]⟩

/-- A text is found in its slot from then on. -/
theorem finds_addUtf8 (text : String) :
    Finds (addUtf8 text) fun z i => z.find? (.utf8 text) = some i := by
  rw [addUtf8]
  split
  · exact .throw _
  · exact finds_intern _

/-- So is a class by the slot of its name. -/
theorem finds_addClassByNameIndex (name : UInt16) :
    Finds (addClassByNameIndex name) fun z i => z.find? (.classRef name) = some i :=
  finds_intern _

/-- A class is found with its name. -/
theorem finds_addClass (name : String) : Finds (addClass name) fun z i =>
    ∃ n, z.find? (.utf8 name) = some n ∧ z.find? (.classRef n) = some i :=
  (finds_addUtf8 name).bind finds_addClassByNameIndex fun _ n _ _ hn hi => ⟨n, hn, hi⟩

/-- A name and type is found with both its texts. -/
theorem finds_addNameAndType (name descriptor : String) :
    Finds (addNameAndType name descriptor) fun z i => ∃ n d, z.find? (.utf8 name) = some n ∧
      z.find? (.utf8 descriptor) = some d ∧ z.find? (.nameAndType n d) = some i := by
  have hpair : ∀ n, Finds (addUtf8 descriptor >>= fun d => intern (.nameAndType n d)) fun z i =>
      ∃ d, z.find? (.utf8 descriptor) = some d ∧ z.find? (.nameAndType n d) = some i :=
    fun n => (finds_addUtf8 descriptor).bind (fun d => finds_intern (.nameAndType n d))
      fun _ d _ _ hd hi => ⟨d, hd, hi⟩
  exact (finds_addUtf8 name).bind hpair fun _ n _ _ hn ⟨d, hd, hi⟩ => ⟨n, d, hn, hd, hi⟩

/-- Fields and methods are added in one way, which `member` makes a constant of. -/
theorem finds_member (member : UInt16 → UInt16 → Constant) (className name descriptor : String) :
    Finds (do intern (member (← addClass className) (← addNameAndType name descriptor))) fun z i =>
      ∃ o pair, (∃ n, z.find? (.utf8 className) = some n ∧ z.find? (.classRef n) = some o) ∧
        (∃ n d, z.find? (.utf8 name) = some n ∧ z.find? (.utf8 descriptor) = some d ∧
          z.find? (.nameAndType n d) = some pair) ∧ z.find? (member o pair) = some i := by
  have hpair : ∀ o, Finds (addNameAndType name descriptor >>= fun pair => intern (member o pair))
      fun z i => ∃ pair, (∃ n d, z.find? (.utf8 name) = some n ∧
        z.find? (.utf8 descriptor) = some d ∧ z.find? (.nameAndType n d) = some pair) ∧
          z.find? (member o pair) = some i :=
    fun o => (finds_addNameAndType name descriptor).bind (fun pair => finds_intern (member o pair))
      fun _ pair _ _ hpair hi => ⟨pair, hpair, hi⟩
  exact (finds_addClass className).bind hpair
    fun _ o _ _ ho ⟨pair, hpair, hi⟩ => ⟨o, pair, ho, hpair, hi⟩

/-! ## Known names -/

/-- A known name is noted with the slot in which its text is found. -/
theorem Consistent.noteKnown (hp : p.Consistent) {name : KnownName} {i : UInt16}
    (h : p.find? (.utf8 name.text) = some i) :
    (noteKnown name i p).Consistent ∧ p.Grows (noteKnown name i p) := by
  refine ⟨⟨hp.size_le, hp.get_of_find, fun {other j} hj => ?_, hp.find_of_knownClass⟩,
    List.prefix_refl _, id, ?_, id⟩
  · rw [ConstantPool.noteKnown, Std.HashMap.getElem?_insert] at hj
    split at hj
    · obtain rfl : name = other := by simpa using ‹(name == other) = true›
      exact Option.some.inj hj ▸ h
    · exact hp.find_of_knownText hj
  · exact getElem?_insert_of_none fun j hj =>
      Option.some.inj ((hp.find_of_knownText hj).symm.trans h)

/-- To note the slot of a known class keeps the pool consistent. -/
theorem Consistent.noteKnownClass (hp : p.Consistent) {name : KnownName} {n i : UInt16}
    (htext : p.find? (.utf8 name.text) = some n) (hclass : p.find? (.classRef n) = some i) :
    (noteKnownClass name i p).Consistent ∧ p.Grows (noteKnownClass name i p) := by
  refine ⟨⟨hp.size_le, hp.get_of_find, hp.find_of_knownText, fun {other j} hj => ?_⟩,
    List.prefix_refl _, id, id, ?_⟩
  · rw [ConstantPool.noteKnownClass, Std.HashMap.getElem?_insert] at hj
    split at hj
    · obtain rfl : name = other := by simpa using ‹(name == other) = true›
      exact Option.some.inj hj ▸ ⟨n, htext, hclass⟩
    · exact hp.find_of_knownClass hj
  · refine getElem?_insert_of_none fun j hj => ?_
    obtain ⟨n', htext', hclass'⟩ := hp.find_of_knownClass hj
    obtain rfl : n' = n := Option.some.inj (htext'.symm.trans htext)
    exact Option.some.inj (hclass'.symm.trans hclass)

/-- A known name is found like any text. -/
theorem finds_known (name : KnownName) :
    Finds (known name) fun z i => z.find? (.utf8 name.text) = some i := by
  have hmake := finds_addUtf8 name.text
  refine finds_remembered hmake (fun _ _ hp => hp.find_of_knownText) (fun _ _ _ h => h.knownText) ?_
  intro p i hp _ hi
  obtain ⟨hq, -, hfound⟩ := hmake.keeps p hp
  obtain ⟨hn, hqn⟩ := hq.noteKnown (hfound i hi)
  exact ⟨hn, hqn, by simp [noteKnown]⟩

/-- A known class is found like any class. -/
theorem finds_knownClass (name : KnownName) : Finds (knownClass name) fun z i =>
    ∃ n, z.find? (.utf8 name.text) = some n ∧ z.find? (.classRef n) = some i := by
  have hmake : Finds (known name >>= addClassByNameIndex) fun z i =>
      ∃ n, z.find? (.utf8 name.text) = some n ∧ z.find? (.classRef n) = some i :=
    (finds_known name).bind finds_addClassByNameIndex fun _ n _ _ hn hi => ⟨n, hn, hi⟩
  refine finds_remembered hmake (fun _ _ hp => hp.find_of_knownClass)
    (fun _ _ _ h => h.knownClass) ?_
  intro p i hp _ hi
  obtain ⟨hq, -, hfound⟩ := hmake.keeps p hp
  obtain ⟨n, htext, hclass⟩ := hfound i hi
  obtain ⟨hn, hqn⟩ := hq.noteKnownClass htext hclass
  exact ⟨hn, hqn, by simp [noteKnownClass]⟩

/-! ## Whole runs -/

/-- What can be asked of a pool. -/
inductive Request where
  | utf8 (text : String)
  | classByNameIndex (name : UInt16)
  | classNamed (name : String)
  | nameAndType (name descriptor : String)
  | fieldref (className name descriptor : String)
  | methodref (className name descriptor : String)
  | constant (c : Constant)
  | known (name : KnownName)
  | knownClass (name : KnownName)

namespace Request

/-- The computation that answers a request with a slot. -/
def answer : Request → Build UInt16
  | utf8 text => addUtf8 text
  | classByNameIndex name => addClassByNameIndex name
  | classNamed name => addClass name
  | nameAndType name descriptor => addNameAndType name descriptor
  | fieldref className name descriptor => addFieldref className name descriptor
  | methodref className name descriptor => addMethodref className name descriptor
  | constant c => addConstant c
  | known name => ConstantPool.known name
  | knownClass name => ConstantPool.knownClass name

/-- Slot `i` of the pool stands for exactly what a request asked for. -/
def Resolves (pool : ConstantPool) (i : UInt16) : Request → Prop
  | utf8 text => pool.utf8? i = some text
  | classByNameIndex name => pool.classNameIndex? i = some name
  | classNamed name => pool.className? i = some name
  | nameAndType name descriptor => pool.nameAndType? i = some (name, descriptor)
  | fieldref className name descriptor => ∃ owner pair, pool.get? i = some (.fieldref owner pair) ∧
      pool.memberRef? i = some ⟨owner, className, name, descriptor⟩
  | methodref className name descriptor => ∃ owner pair, pool.get? i = some (.methodref owner pair) ∧
      pool.memberRef? i = some ⟨owner, className, name, descriptor⟩
  | constant c => pool.get? i = some c
  | known name => pool.utf8? i = some name.text
  | knownClass name => pool.className? i = some name.text

/-- Whether a request looks for an equal one made before: all do but those for constants that are
neither texts nor classes. -/
def isRepeatable : Request → Bool
  | constant (.utf8 _) | constant (.classRef _) => true
  | constant _ => false
  | _ => true

end Request

section

variable {i : UInt16}

/-- The slot in which a class is found has its name. -/
theorem Consistent.className? (hz : z.Consistent) {name : String}
    (h : ∃ n, z.find? (.utf8 name) = some n ∧ z.find? (.classRef n) = some i) :
    z.className? i = some name := by
  obtain ⟨n, hn, hi⟩ := h
  simp [ConstantPool.className?, classNameIndex?, utf8?, hz.get_of_find hn, hz.get_of_find hi]

/-- The slot in which a name and type is found has both its texts. -/
theorem Consistent.nameAndType? (hz : z.Consistent) {name descriptor : String}
    (h : ∃ n d, z.find? (.utf8 name) = some n ∧ z.find? (.utf8 descriptor) = some d ∧
      z.find? (.nameAndType n d) = some i) : z.nameAndType? i = some (name, descriptor) := by
  obtain ⟨n, d, hn, hd, hi⟩ := h
  simp [ConstantPool.nameAndType?, utf8?, hz.get_of_find hn, hz.get_of_find hd, hz.get_of_find hi]

/-- A request that looks for an equal one before finds what it asked for. -/
theorem Request.finds (r : Request) (h : r.isRepeatable) :
    Finds r.answer fun z i => r.Resolves z i := by
  have htext : ∀ text, Finds (addUtf8 text) fun z i => z.get? i = some (.utf8 text) :=
    fun text => (finds_addUtf8 text).mono fun _ _ hz hi => hz.get_of_find hi
  have hclass : ∀ name, Finds (addClassByNameIndex name) fun z i => z.get? i = some (.classRef name) :=
    fun name => (finds_addClassByNameIndex name).mono fun _ _ hz hi => hz.get_of_find hi
  -- what is found is in its slot, and what the slot stands for is read off the constant there
  cases r with
  | utf8 text => exact (htext text).mono fun z i _ hi => by simp [Resolves, utf8?, hi]
  | classByNameIndex name =>
    exact (hclass name).mono fun z i _ hi => by simp [Resolves, classNameIndex?, hi]
  | classNamed name => exact (finds_addClass name).mono fun z i hz hi => hz.className? hi
  | nameAndType name descriptor =>
    exact (finds_addNameAndType name descriptor).mono fun z i hz hi => hz.nameAndType? hi
  | fieldref className name descriptor =>
    refine (finds_member .fieldref className name descriptor).mono fun z i hz hi => ?_
    obtain ⟨owner, pair, hclass, hpair, hi⟩ := hi
    refine ⟨owner, pair, hz.get_of_find hi, ?_⟩
    simp [memberRef?, hz.get_of_find hi, hz.className? hclass, hz.nameAndType? hpair]
  | methodref className name descriptor =>
    refine (finds_member .methodref className name descriptor).mono fun z i hz hi => ?_
    obtain ⟨owner, pair, hclass, hpair, hi⟩ := hi
    refine ⟨owner, pair, hz.get_of_find hi, ?_⟩
    simp [memberRef?, hz.get_of_find hi, hz.className? hclass, hz.nameAndType? hpair]
  -- of the constants that are added as such, only texts and classes are looked for first
  | constant c =>
    cases c with
    | utf8 text => exact htext text
    | classRef name => exact hclass name
    | _ => simp [isRepeatable] at h
  | known name =>
    exact (finds_known name).mono fun z i hz hi => by simp [Resolves, utf8?, hz.get_of_find hi]
  | knownClass name => exact (finds_knownClass name).mono fun z i hz hi => hz.className? hi

/-- A request that looks for nothing appends its constant. -/
theorem Request.exists_append {r : Request} (h : r.isRepeatable = false) :
    ∃ c, r = .constant c ∧ r.answer = append c := by
  cases r with
  | constant c =>
    cases c with
    | utf8 | classRef => simp [isRepeatable] at h
    | _ => exact ⟨_, rfl, rfl⟩
  | _ => simp [isRepeatable] at h

/-- The slot that answers a request stands for what was asked for, wherever the pool has grown to,
and a repeatable request gets it again. -/
theorem Request.keeps (r : Request) : Keeps r.answer fun q i => ∀ z, z.Consistent → q.Grows z →
    r.Resolves z i ∧ (r.isRepeatable → r.answer.run z = (.ok i, z)) := by
  rcases hrep : r.isRepeatable
  · obtain ⟨c, rfl, happend⟩ := exists_append hrep
    intro p hp
    rw [happend]
    obtain ⟨hq, hpq, hget⟩ := keeps_append c p hp
    exact ⟨hq, hpq, fun i hi z _ hz => ⟨hz.get? (hget i hi), nofun⟩⟩
  · intro p hp
    obtain ⟨hq, hpq, hfound⟩ := r.finds hrep p hp
    exact ⟨hq, hpq, fun i hi z hz hqz =>
      ⟨(hfound i hi z hz hqz).2, fun _ => (hfound i hi z hz hqz).1⟩⟩

end

/-! ## What looking before appending keeps -/

/-- The computation takes every pool to one that is related to it, also if it fails half-way. -/
def Steps (R : ConstantPool → ConstantPool → Prop) (x : Build α) : Prop := ∀ p, R p (x.run p).2

/-- A relation between pools that is kept by looking for a constant before appending it, and sees nothing but the
slots and the index. -/
structure IsStep (R : ConstantPool → ConstantPool → Prop) : Prop where
  refl (p : ConstantPool) : R p p
  trans {p q z : ConstantPool} : R p q → R q z → R p z
  intern (c : Constant) : Steps R (intern c)
  noted {p q z : ConstantPool} : R p q → z.slots = q.slots → z.index = q.index → R p z

namespace IsStep

variable {R : ConstantPool → ConstantPool → Prop} (h : IsStep R)

include h

/-- Two computations in a row take related steps. -/
theorem bind {x : Build α} {f : α → Build β} (hx : Steps R x) (hf : ∀ a, Steps R (f a)) : Steps R (x >>= f) := by
  intro p
  have hfirst := hx p
  rw [run_bind]
  rcases hrun : x.run p with ⟨e | a, q⟩
  · rwa [hrun] at hfirst
  · rw [hrun] at hfirst
    exact h.trans hfirst (hf a q)

/-- A computation that is remembered takes related steps if it does so when it is made. -/
theorem remembered {look : ConstantPool → Option UInt16} {make : Build UInt16}
    {note : UInt16 → ConstantPool → ConstantPool} (hmake : Steps R make)
    (hnote : ∀ i q, (note i q).slots = q.slots ∧ (note i q).index = q.index) :
    Steps R (remembered look make note) := by
  intro p
  have hmade := hmake p
  rw [run_remembered]
  rcases look p with _ | i
  · rcases hrun : make.run p with ⟨e | i, q⟩
    · rwa [hrun] at hmade
    · rw [hrun] at hmade
      exact h.noted hmade (hnote i q).1 (hnote i q).2
  · exact h.refl p

/-- To add a text takes related steps. -/
theorem addUtf8 (text : String) : Steps R (addUtf8 text) := by
  rw [ConstantPool.addUtf8]
  split
  · exact h.refl
  · exact h.intern _

/-- So does a class. -/
theorem addClass (name : String) : Steps R (addClass name) := h.bind (h.addUtf8 name) fun _ => h.intern _

/-- So does a name and type. -/
theorem addNameAndType (name descriptor : String) : Steps R (addNameAndType name descriptor) :=
  h.bind (h.addUtf8 name) fun _ => h.bind (h.addUtf8 descriptor) fun _ => h.intern _

/-- Fields and methods are added in one way, which `member` makes a constant of. -/
theorem member (member : UInt16 → UInt16 → Constant) (className name descriptor : String) :
    Steps R (do ConstantPool.intern (member (← ConstantPool.addClass className)
      (← ConstantPool.addNameAndType name descriptor))) :=
  h.bind (h.addClass className) fun _ => h.bind (h.addNameAndType name descriptor) fun _ => h.intern _

/-- So does a known name. -/
theorem known (name : KnownName) : Steps R (known name) := h.remembered (h.addUtf8 _) fun _ _ => ⟨rfl, rfl⟩

/-- So does a known class. -/
theorem knownClass (name : KnownName) : Steps R (knownClass name) :=
  h.remembered (h.bind (h.known name) fun _ => h.intern _) fun _ _ => ⟨rfl, rfl⟩

/-- The relation is kept by every request that looks first, however many constants it is made of. -/
theorem answer {r : Request} (hr : r.isRepeatable) : Steps R r.answer := by
  cases r with
  | utf8 text => exact h.addUtf8 text
  | classByNameIndex name => exact h.intern (.classRef name)
  | classNamed name => exact h.addClass name
  | nameAndType name descriptor => exact h.addNameAndType name descriptor
  | fieldref className name descriptor => exact h.member .fieldref className name descriptor
  | methodref className name descriptor => exact h.member .methodref className name descriptor
  | constant c =>
    cases c with
    | utf8 text => exact h.addUtf8 text
    | classRef name => exact h.intern (.classRef name)
    | _ => simp [Request.isRepeatable] at hr
  | known name => exact h.known name
  | knownClass name => exact h.knownClass name

end IsStep

/-- What is done with a pool: it is asked for something, or closed. -/
inductive Operation where
  | ask (r : Request)
  | freeze

/-- The pool behind an operation. -/
def perform (pool : ConstantPool) : Operation → ConstantPool
  | .ask r => (r.answer.run pool).2
  | .freeze => pool.freeze

/-- The pool behind a row of operations. -/
def performAll (pool : ConstantPool) (ops : List Operation) : ConstantPool := ops.foldl perform pool

/-- Whatever is done with a pool, it stays consistent and grows. -/
theorem Consistent.perform (hp : p.Consistent) (op : Operation) :
    (p.perform op).Consistent ∧ p.Grows (p.perform op) := by
  cases op with
  | ask r =>
    obtain ⟨hq, hpq, -⟩ := r.keeps p hp
    exact ⟨hq, hpq⟩
  | freeze =>
    exact ⟨⟨hp.size_le, hp.get_of_find, hp.find_of_knownText, hp.find_of_knownClass⟩,
      List.prefix_refl _, id, id, id⟩

/-- So it does in a whole run. -/
theorem Consistent.performAll (hp : p.Consistent) (ops : List Operation) :
    (p.performAll ops).Consistent ∧ p.Grows (p.performAll ops) := by
  induction ops generalizing p with
  | nil => exact ⟨hp, .refl p⟩
  | cons op ops ih =>
    obtain ⟨hq, hpq⟩ := hp.perform op
    obtain ⟨hz, hqz⟩ := ih hq
    exact ⟨hz, hpq.trans hqz⟩

/-- A run can be cut in two. -/
theorem performAll_append (p : ConstantPool) (before after : List Operation) :
    p.performAll (before ++ after) = (p.performAll before).performAll after := List.foldl_append

/-- A pool forgets nothing. Start from the empty pool or one read from a file, and take any row of
operations, failing ones and `freeze` included. The slots there at any time stay in front of those
that come later, and appending does not lead past the largest size. The slot that answers a request
stands for exactly what was asked for, then and after whatever follows; and the same request, unless
it appends without looking, gets the same slot at any later time and leaves the pool unchanged. -/
theorem performAll_forgets_nothing {start : ConstantPool}
    (hstart : start = empty ∨ ∃ slots, slots.length ≤ maxSize ∧ start = ofSlots slots) :
    (∀ before after, (start.performAll before).slots.toList <+:
        (start.performAll (before ++ after)).slots.toList ∧
      (start.performAll before).size ≤ maxSize) ∧
    ∀ before r after i, (r.answer.run (start.performAll before)).1 = .ok i →
      r.Resolves (start.performAll (before ++ .ask r :: after)) i ∧
      (r.isRepeatable → r.answer.run (start.performAll (before ++ .ask r :: after)) =
        (.ok i, start.performAll (before ++ .ask r :: after))) := by
  have hconsistent : start.Consistent := by
    rcases hstart with rfl | ⟨slots, hsize, rfl⟩
    · exact .empty
    · exact .ofSlots hsize
  refine ⟨fun before after => ?_, fun before r after i hi => ?_⟩
  · obtain ⟨hp, -⟩ := hconsistent.performAll before
    rw [performAll_append]
    exact ⟨(hp.performAll after).2.slots, hp.size_le⟩
  · obtain ⟨hp, -⟩ := hconsistent.performAll before
    obtain ⟨hq, -, hkept⟩ := r.keeps _ hp
    obtain ⟨hz, hqz⟩ := hq.performAll after
    rw [performAll_append]
    exact hkept i hi _ hz hqz

/-- The class is found in a frozen pool that can take no other text. -/
theorem performAll_forgets_nothing_frozen :
    (Request.classNamed "A").answer.run
        (performAll empty [.ask (.classNamed "A"), .freeze, .ask (.utf8 "B")]) =
      (.ok 2, performAll empty [.ask (.classNamed "A"), .freeze, .ask (.utf8 "B")]) :=
  ((performAll_forgets_nothing (.inl rfl)).2 [] (.classNamed "A") [.freeze, .ask (.utf8 "B")] 2
    (by cbv)).2 rfl

end JvmDecompiler.ConstantPool
