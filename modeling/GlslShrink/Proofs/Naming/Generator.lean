import GlslShrink.Naming.Generator
import GlslShrink.Proofs.Reading.Lexical

/-!
Short names are fresh. Different numbers have different names, and of the reserved words only the
listed ones can be among them; so a search as long as the used names and the listed words together
finds a free one (`isFree_firstFree`). A generator whose names are kept apart from each other, from
the used names and from the reserved words stays so (`Proper.shorten`), a symbol that has a short
name keeps it, and new names have the numbers that the generator passed (`Extends`).
-/

set_option autoImplicit false

namespace GlslShrink

/-! ### The numbering -/

namespace ShortName

theorem pick_eq {alphabet : List Char} {i : Nat} (hi : i < alphabet.length) :
    pick alphabet i = alphabet[i] := by
  rw [pick, List.getD_eq_getElem?_getD, List.getElem?_eq_getElem hi, Option.getD_some]

theorem pick_mem {alphabet : List Char} {i : Nat} (hi : i < alphabet.length) :
    pick alphabet i ∈ alphabet := by
  rw [pick_eq hi]
  exact List.getElem_mem hi

theorem pick_inj {alphabet : List Char} (hnodup : alphabet.Nodup) {i j : Nat}
    (hi : i < alphabet.length) (hj : j < alphabet.length)
    (h : pick alphabet i = pick alphabet j) : i = j := by
  rw [pick_eq hi, pick_eq hj] at h
  exact (List.getElem_inj hnodup).mp h

theorem nodup_letters_digits : (letters ++ digits).Nodup := by
  decide +kernel

theorem nodup_letters : letters.Nodup :=
  (List.nodup_append.mp nodup_letters_digits).1

theorem tail_inj {m n : Nat} (h : tail m = tail n) : m = n := by
  fun_induction tail m generalizing n with
  | case1 =>
    cases n with
    | zero => rfl
    | succ n =>
      rw [tail] at h
      cases h
  | case2 m ih =>
    cases n with
    | zero =>
      rw [tail] at h
      cases h
    | succ n =>
      rw [tail, List.cons.injEq] at h
      have hlength : (letters ++ digits).length = 62 := rfl
      have hdigit := pick_inj nodup_letters_digits (by omega) (by omega) h.1
      have hrest := ih h.2
      omega

theorem chars_inj {m n : Nat} (h : chars m = chars n) : m = n := by
  rw [chars, chars, List.cons.injEq] at h
  have hlength : letters.length = 52 := rfl
  have hdigit := pick_inj nodup_letters (by omega) (by omega) h.1
  have hrest := tail_inj h.2
  omega

theorem mem_tail {n : Nat} {c : Char} (h : c ∈ tail n) : c ∈ letters ++ digits := by
  fun_induction tail n with
  | case1 => cases h
  | case2 n ih =>
    have hlength : (letters ++ digits).length = 62 := rfl
    rcases List.mem_cons.mp h with rfl | h
    · exact pick_mem (by omega)
    · exact ih h

theorem chars_eq (n : Nat) : ∃ c rest, chars n = c :: rest ∧ c ∈ letters ∧
    ∀ d ∈ rest, d ∈ letters ++ digits := by
  have hlength : letters.length = 52 := rfl
  exact ⟨_, _, rfl, pick_mem (by omega), fun d hd => mem_tail hd⟩

/-- The word is a short name with the given number, plain or for a definition. -/
inductive Numbers (index : Nat) : String → Prop where
  | plain : Numbers index (plain index)
  | definition : Numbers index (definition index)

theorem plain_ne_definition (m n : Nat) : plain m ≠ definition n := by
  intro h
  obtain ⟨c, rest, hchars, hc, -⟩ := chars_eq m
  have hcons : chars m = '_' :: chars n := String.ofList_injective h
  rw [hchars] at hcons
  rw [(List.cons.inj hcons).1] at hc
  exact absurd hc (by decide)

/-- A short name has one number. -/
theorem Numbers.unique {m n : Nat} {word : String} (hm : Numbers m word) (hn : Numbers n word) :
    m = n := by
  generalize hword : word = other at hn
  cases hm with
  | plain =>
    cases hn with
    | plain => exact chars_inj (String.ofList_injective hword)
    | definition => exact absurd hword (plain_ne_definition m n)
  | definition =>
    cases hn with
    | plain => exact absurd hword.symm (plain_ne_definition n m)
    | definition => exact chars_inj (List.cons.inj (String.ofList_injective hword)).2

end ShortName

/-- Every number has a short name with that number, all names are words, and those that are reserved
are among the listed ones. -/
structure Numbering (nameFor : Nat → String) : Prop where
  numbers : ∀ n, ShortName.Numbers n (nameFor n)
  isWord : ∀ n, Word.isWord (nameFor n) = true
  listed : ∀ n, Word.isReserved (nameFor n) = true → nameFor n ∈ Word.reservedWords

/-- Different numbers have different names. -/
theorem Numbering.injective {nameFor : Nat → String} (h : Numbering nameFor) (m n : Nat)
    (heq : nameFor m = nameFor n) : m = n :=
  (h.numbers m).unique (heq ▸ h.numbers n)

section Numbering

open ShortName

theorem underscore_not_mem : '_' ∉ letters ++ digits := by
  decide

theorem hasDoubleUnderscore_of_alphanumeric {text : List Char}
    (h : ∀ c ∈ text, c ∈ letters ++ digits) : Word.hasDoubleUnderscore text = false := by
  induction text with
  | nil => rfl
  | cons c rest ih =>
    obtain ⟨hc, hrest⟩ := List.forall_mem_cons.mp h
    rw [Word.hasDoubleUnderscore]
    · exact ih hrest
    · rintro _ rfl
      exact absurd hc underscore_not_mem

theorem startsWith_of_alphanumeric {text : List Char} (h : ∀ c ∈ text, c ∈ letters ++ digits) :
    Text.startsWith ['g', 'l', '_'] text = false := by
  match text with
  | [] => rfl
  | [c] => simp [Text.startsWith, Text.afterStart?]
  | [c, d] => simp [Text.startsWith, Text.afterStart?]
  | c :: d :: e :: rest =>
    have he : '_' ≠ e := fun he => underscore_not_mem (he ▸ h e (by simp))
    simp [Text.startsWith, Text.afterStart?, he]

theorem mem_reservedWords {text : List Char}
    (hstart : Text.startsWith ['g', 'l', '_'] text = false)
    (hscores : Word.hasDoubleUnderscore text = false)
    (h : Word.isReserved (String.ofList text) = true) :
    String.ofList text ∈ Word.reservedWords := by
  rw [Word.isReserved, String.toList_ofList, hstart, hscores] at h
  simpa using h

theorem isWord_of_alphanumeric {c : Char} {rest : List Char} (hc : Word.isStart c = true)
    (hrest : ∀ d ∈ rest, d ∈ letters ++ digits) :
    Word.isWord (String.ofList (c :: rest)) = true := by
  have hall : ∀ d ∈ letters ++ digits, Word.isPart d = true := forall_mem_of_all (by decide)
  rw [Word.isWord, String.toList_ofList]
  simp only [hc, Bool.true_and, List.all_eq_true]
  exact fun d hd => hall d (hrest d hd)

theorem mem_chars (n : Nat) : ∀ c ∈ chars n, c ∈ letters ++ digits := by
  obtain ⟨c, rest, hchars, hc, hrest⟩ := chars_eq n
  rw [hchars]
  exact List.forall_mem_cons.mpr ⟨List.mem_append_left _ hc, hrest⟩

theorem numbering_plain : Numbering plain where
  numbers _ := .plain
  isWord n := by
    obtain ⟨c, rest, hchars, hc, hrest⟩ := chars_eq n
    have hall : ∀ d ∈ letters, Word.isStart d = true := forall_mem_of_all (by decide)
    rw [plain, hchars]
    exact isWord_of_alphanumeric (hall c hc) hrest
  listed n :=
    mem_reservedWords (startsWith_of_alphanumeric (mem_chars n))
      (hasDoubleUnderscore_of_alphanumeric (mem_chars n))

theorem numbering_definition : Numbering definition where
  numbers _ := .definition
  isWord n := isWord_of_alphanumeric rfl (mem_chars n)
  listed n := by
    obtain ⟨c, rest, hchars, hc, hrest⟩ := chars_eq n
    have hscore : c ≠ '_' := fun h => underscore_not_mem (List.mem_append_left _ (h ▸ hc))
    have hscores : Word.hasDoubleUnderscore ('_' :: chars n) = false := by
      rw [hchars, Word.hasDoubleUnderscore, ← hchars]
      · exact hasDoubleUnderscore_of_alphanumeric (mem_chars n)
      · rintro _ - hcons
        exact hscore (List.cons.inj hcons).1
    exact mem_reservedWords rfl hscores

end Numbering

/-! ### Finite maps -/

namespace NameMap

variable {α : Type}

theorem find?_cons (name first : String) (value : α) (others : NameMap α) :
    NameMap.find? ((first, value) :: others) name =
      if name = first then some value else others.find? name := by
  rw [find?, List.lookup_cons]
  by_cases h : name = first
  · rw [if_pos h, beq_iff_eq.mpr h]
  · rw [if_neg h, beq_eq_false_iff_ne.mpr h, find?]

theorem find?_insert (map : NameMap α) (name other : String) (value : α) :
    (map.insert name value).find? other =
      if other = name then some value else map.find? other := by
  fun_induction insert map name value with
  | case1 => rw [find?_cons]
  | case2 old others =>
    rw [find?_cons, find?_cons]
    by_cases h : other = name <;> simp [h]
  | case3 first old others hne ih =>
    rw [find?_cons, find?_cons, ih]
    by_cases h : other = first
    · simp [h, hne]
    · simp [h]

theorem mem_of_find? {map : NameMap α} {name : String} {value : α}
    (h : map.find? name = some value) : (name, value) ∈ map := by
  induction map with
  | nil => cases h
  | cons entry map ih =>
    obtain ⟨first, old⟩ := entry
    rw [find?_cons] at h
    by_cases hname : name = first
    · rw [if_pos hname, Option.some.injEq] at h
      rw [hname, h]
      exact List.mem_cons_self
    · rw [if_neg hname] at h
      exact List.mem_cons_of_mem _ (ih h)

theorem mem_insert {map : NameMap α} {name : String} {value : α} {entry : String × α}
    (h : entry ∈ map.insert name value) : entry = (name, value) ∨ entry ∈ map := by
  fun_induction insert map name value with
  | case1 => exact Or.inl (List.mem_singleton.mp h)
  | case2 old others =>
    exact (List.mem_cons.mp h).imp_right (List.mem_cons_of_mem _)
  | case3 first old others hne ih =>
    rcases List.mem_cons.mp h with h | h
    · exact Or.inr (h ▸ List.mem_cons_self)
    · exact (ih h).imp_right (List.mem_cons_of_mem _)

theorem find?_filter (map : NameMap α) (p : String → Bool) (name : String) :
    NameMap.find? (map.filter fun entry => p entry.1) name =
      if p name then map.find? name else none := by
  induction map with
  | nil => exact (ite_self _).symm
  | cons entry map ih =>
    obtain ⟨first, value⟩ := entry
    rw [List.filter_cons, find?_cons]
    by_cases hfirst : p first = true
    · rw [if_pos hfirst, find?_cons, ih]
      by_cases hname : name = first
      · rw [if_pos hname, hname, if_pos hfirst, if_pos rfl]
      · rw [if_neg hname, if_neg hname]
    · rw [if_neg hfirst, ih]
      by_cases hname : name = first
      · rw [hname, if_neg hfirst, if_neg hfirst]
      · rw [if_neg hname]

theorem contains_iff (map : NameMap α) (name : String) :
    map.contains name = true ↔ ∃ value, map.find? name = some value := by
  rw [contains, Option.isSome_iff_exists]

end NameMap

namespace Generator

/-! ### The search for a free name -/

variable {nameFor : Nat → String}

/-- The search ends at a free name, unless it has seen that none of its names is free. -/
theorem isFree_firstFree_or (used : NameSet) (nameFor : Nat → String) (bound index : Nat) :
    isFree used (nameFor (firstFree used nameFor bound index)) = true ∨
      ∀ i < bound, isFree used (nameFor (index + i)) = false := by
  induction bound generalizing index with
  | zero => exact Or.inr fun i hi => absurd hi (Nat.not_lt_zero i)
  | succ bound ih =>
    rw [firstFree]
    by_cases hfree : isFree used (nameFor index) = true
    · rw [if_pos hfree]
      exact Or.inl hfree
    · rw [if_neg hfree]
      refine (ih (index + 1)).imp_right fun hnone i hi => ?_
      cases i with
      | zero => exact Bool.eq_false_iff.mpr hfree
      | succ i =>
        have hnext := hnone i (by omega)
        rwa [Nat.add_assoc, Nat.add_comm 1] at hnext

theorem le_firstFree (used : NameSet) (nameFor : Nat → String) (bound index : Nat) :
    index ≤ firstFree used nameFor bound index := by
  fun_induction firstFree used nameFor bound index with
  | case1 => exact Nat.le_refl _
  | case2 => exact Nat.le_refl _
  | case3 bound index hfree ih => omega

/-- The search passes names that are not free. -/
theorem not_isFree_of_lt_firstFree {used : NameSet} {nameFor : Nat → String} {bound index i : Nat}
    (hle : index ≤ i) (hlt : i < firstFree used nameFor bound index) :
    isFree used (nameFor i) = false := by
  fun_induction firstFree used nameFor bound index with
  | case1 => omega
  | case2 => omega
  | case3 bound index hfree ih =>
    rcases Nat.eq_or_lt_of_le hle with rfl | hle
    · exact Bool.eq_false_iff.mpr hfree
    · exact ih hle hlt

theorem isFree_iff {used : NameSet} {name : String} :
    isFree used name = true ↔ Word.isReserved name = false ∧ name ∉ used := by
  simp [isFree]

theorem mem_of_not_isFree (hnumbering : Numbering nameFor) {used : NameSet} {n : Nat}
    (h : isFree used (nameFor n) = false) : nameFor n ∈ used ++ Word.reservedWords := by
  by_cases hused : nameFor n ∈ used
  · exact List.mem_append_left _ hused
  · cases hreserved : Word.isReserved (nameFor n) with
    | true => exact List.mem_append_right _ (hnumbering.listed n hreserved)
    | false =>
      rw [isFree_iff.mpr ⟨hreserved, hused⟩] at h
      cases h

/-- More names than there are used names and listed words can not all be taken. -/
theorem isFree_firstFree (hnumbering : Numbering nameFor) (used : NameSet) (index : Nat) :
    isFree used
      (nameFor (firstFree used nameFor (used.length + Word.reservedWords.length + 1) index)) =
        true := by
  refine (isFree_firstFree_or used nameFor _ index).resolve_right fun hnone => ?_
  let seen := (List.range (used.length + Word.reservedWords.length + 1)).map
    fun i => nameFor (index + i)
  have hnodup : seen.Nodup := by
    refine List.Pairwise.map _ (fun i j hne heq => hne ?_) List.nodup_range
    have hsum := hnumbering.injective _ _ heq
    omega
  have hsubset : seen ⊆ used ++ Word.reservedWords := by
    intro name hname
    obtain ⟨i, hi, rfl⟩ := List.mem_map.mp hname
    exact mem_of_not_isFree hnumbering (hnone i (List.mem_range.mp hi))
  have hlength := hnodup.length_le_of_subset hsubset
  simp only [seen, List.length_map, List.length_range, List.length_append] at hlength
  omega

/-! ### Handing out names -/

/-- No two symbols share a short name, and the short names are in use. -/
structure Proper (names : Generator) : Prop where
  injective : ∀ {a b short}, names.shortened.find? a = some short →
    names.shortened.find? b = some short → a = b
  used : ∀ {a short}, names.shortened.find? a = some short → short ∈ names.used

/-- The second generator comes from the first one by handing out names: nothing is forgotten, new
short names are words that were neither in use nor reserved, and their numbers are those passed
on the way. -/
structure Extends (names names' : Generator) : Prop where
  next : names.nextIndex ≤ names'.nextIndex
  used : ∀ name ∈ names.used, name ∈ names'.used
  keeps : ∀ {a short}, names.shortened.find? a = some short → names'.shortened.find? a = some short
  fresh : ∀ {a short}, names'.shortened.find? a = some short →
    names.shortened.find? a = some short ∨
      short ∉ names.used ∧ Word.isReserved short = false ∧ Word.isWord short = true
  numbered : ∀ {a short}, names'.shortened.find? a = some short →
    names.shortened.find? a = some short ∨
      ∃ i, names.nextIndex ≤ i ∧ i < names'.nextIndex ∧ ShortName.Numbers i short

theorem Extends.refl (names : Generator) : names.Extends names :=
  ⟨Nat.le_refl _, fun _ h => h, fun h => h, Or.inl, Or.inl⟩

theorem Extends.trans {a b c : Generator} (hab : a.Extends b) (hbc : b.Extends c) :
    a.Extends c where
  next := Nat.le_trans hab.next hbc.next
  used name h := hbc.used name (hab.used name h)
  keeps h := hbc.keeps (hab.keeps h)
  fresh h := by
    rcases hbc.fresh h with h | ⟨hused, hfresh⟩
    · exact hab.fresh h
    · exact Or.inr ⟨fun hmem => hused (hab.used _ hmem), hfresh⟩
  numbered h := by
    have hab' := hab.next
    have hbc' := hbc.next
    rcases hbc.numbered h with h | ⟨i, hlow, hhigh, hnumber⟩
    · refine (hab.numbered h).imp_right fun ⟨i, hlow, hhigh, hnumber⟩ => ?_
      exact ⟨i, hlow, by omega, hnumber⟩
    · exact Or.inr ⟨i, by omega, hhigh, hnumber⟩

theorem mem_assign_used {names : Generator} {symbol short name : String} :
    name ∈ (names.assign symbol short).used ↔ name = short ∨ name ∈ names.used :=
  NameSet.mem_insert

theorem find?_assign (names : Generator) (symbol short name : String) :
    (names.assign symbol short).shortened.find? name =
      if name = symbol then some short else names.shortened.find? name :=
  NameMap.find?_insert _ _ _ _

/-- A name that is not in use can be given to any symbol. -/
theorem Proper.assign {names : Generator} (hproper : names.Proper) {short : String}
    (hfree : short ∉ names.used) (symbol : String) : (names.assign symbol short).Proper where
  injective {a b s} ha hb := by
    rw [find?_assign] at ha hb
    by_cases hasymbol : a = symbol <;> by_cases hbsymbol : b = symbol
    · rw [hasymbol, hbsymbol]
    · rw [if_pos hasymbol, Option.some.injEq] at ha
      rw [if_neg hbsymbol, ← ha] at hb
      exact absurd (hproper.used hb) hfree
    · rw [if_pos hbsymbol, Option.some.injEq] at hb
      rw [if_neg hasymbol, ← hb] at ha
      exact absurd (hproper.used ha) hfree
    · rw [if_neg hasymbol] at ha
      rw [if_neg hbsymbol] at hb
      exact hproper.injective ha hb
  used {a s} ha := by
    rw [find?_assign] at ha
    rw [mem_assign_used]
    by_cases hasymbol : a = symbol
    · rw [if_pos hasymbol, Option.some.injEq] at ha
      exact Or.inl ha.symm
    · rw [if_neg hasymbol] at ha
      exact Or.inr (hproper.used ha)

theorem Extends.assign {names : Generator} {symbol short : String} {index : Nat}
    (hnone : names.shortened.find? symbol = none) (hfree : short ∉ names.used)
    (hreserved : Word.isReserved short = false) (hword : Word.isWord short = true)
    (hindex : names.nextIndex ≤ index) (hnumber : ShortName.Numbers index short) :
    names.Extends { names.assign symbol short with nextIndex := index + 1 } where
  next := Nat.le_succ_of_le hindex
  used name h := NameSet.mem_insert.mpr (Or.inr h)
  keeps {a s} ha := by
    have hne : a ≠ symbol := by
      rintro rfl
      rw [hnone] at ha
      cases ha
    rw [find?_assign, if_neg hne, ha]
  fresh {a s} ha := by
    rw [find?_assign] at ha
    by_cases hasymbol : a = symbol
    · rw [if_pos hasymbol, Option.some.injEq] at ha
      exact Or.inr (ha ▸ ⟨hfree, hreserved, hword⟩)
    · rw [if_neg hasymbol] at ha
      exact Or.inl ha
  numbered {a s} ha := by
    rw [find?_assign] at ha
    by_cases hasymbol : a = symbol
    · rw [if_pos hasymbol, Option.some.injEq] at ha
      exact Or.inr ⟨index, hindex, Nat.lt_succ_self index, ha ▸ hnumber⟩
    · rw [if_neg hasymbol] at ha
      exact Or.inl ha

/-- What it means to hand out the short name of a symbol. -/
structure Shortened (names : Generator) (symbol short : String) (names' : Generator) : Prop where
  proper : names'.Proper
  grows : names.Extends names'
  found : names'.shortened.find? symbol = some short
  others : ∀ name ≠ symbol, names'.shortened.find? name = names.shortened.find? name

theorem shortenBy_of_find? {names : Generator} {symbol short : String}
    (h : names.shortened.find? symbol = some short) :
    shortenBy nameFor names symbol = (short, names) := by
  simp only [shortenBy, h]

theorem shortenBy_of_new (hnumbering : Numbering nameFor) {names : Generator} {symbol : String}
    (h : names.shortened.find? symbol = none) :
    ∃ index, names.nextIndex ≤ index ∧ isFree names.used (nameFor index) = true ∧
      (∀ i, names.nextIndex ≤ i → i < index → isFree names.used (nameFor i) = false) ∧
      shortenBy nameFor names symbol =
        (nameFor index, { names.assign symbol (nameFor index) with nextIndex := index + 1 }) := by
  refine ⟨_, le_firstFree _ _ _ _, isFree_firstFree hnumbering names.used names.nextIndex,
    fun i => not_isFree_of_lt_firstFree, ?_⟩
  simp only [shortenBy, h]

theorem Proper.shorten {names : Generator} (hproper : names.Proper)
    (hnumbering : Numbering nameFor) (symbol : String) :
    Shortened names symbol (shortenBy nameFor names symbol).1
      (shortenBy nameFor names symbol).2 := by
  cases hfind : names.shortened.find? symbol with
  | some short =>
    rw [shortenBy_of_find? hfind]
    exact ⟨hproper, .refl names, hfind, fun _ _ => rfl⟩
  | none =>
    obtain ⟨index, hindex, hfree, -, heq⟩ := shortenBy_of_new hnumbering hfind
    obtain ⟨hreserved, hused⟩ := isFree_iff.mp hfree
    have hassigned := hproper.assign hused symbol
    rw [heq]
    exact
      { proper := ⟨hassigned.injective, hassigned.used⟩
        grows := .assign hfind hused hreserved (hnumbering.isWord index) hindex
          (hnumbering.numbers index)
        found := by rw [find?_assign, if_pos rfl]
        others := fun name hname => by rw [find?_assign, if_neg hname] }

/-! ### Reserving names -/

theorem reserveAll_nextIndex (names : Generator) (kept : List String) :
    (names.reserveAll kept).nextIndex = names.nextIndex := by
  induction kept generalizing names with
  | nil => rfl
  | cons name kept ih => exact ih (names.reserve name)

theorem reserveAll_shortened (names : Generator) (kept : List String) :
    (names.reserveAll kept).shortened = names.shortened := by
  induction kept generalizing names with
  | nil => rfl
  | cons name kept ih => exact ih (names.reserve name)

theorem mem_reserveAll_used {names : Generator} {kept : List String} {name : String} :
    name ∈ (names.reserveAll kept).used ↔ name ∈ names.used ∨ name ∈ kept := by
  induction kept generalizing names with
  | nil => simp [reserveAll]
  | cons first kept ih =>
    have hstep : names.reserveAll (first :: kept) = (names.reserve first).reserveAll kept := rfl
    rw [hstep, ih, reserve, NameSet.mem_insert, List.mem_cons]
    grind

theorem Proper.reserveAll {names : Generator} (hproper : names.Proper) (kept : List String) :
    (names.reserveAll kept).Proper where
  injective ha hb := by
    rw [reserveAll_shortened] at ha hb
    exact hproper.injective ha hb
  used ha := by
    rw [reserveAll_shortened] at ha
    exact mem_reserveAll_used.mpr (Or.inl (hproper.used ha))

theorem proper_startingAt (index : Nat) : (startingAt index).Proper where
  injective ha := by cases ha
  used ha := by cases ha

/-! ### Names chosen elsewhere -/

/-- Assigning entries that agree with a map gives every symbol among them its value. -/
theorem find?_assignAll {values : NameMap String} {entries : NameMap String}
    (hvalues : ∀ entry ∈ entries, values.find? entry.1 = some entry.2) (names : Generator)
    (name : String) :
    (entries.foldl (fun names entry => names.assign entry.1 entry.2) names).shortened.find? name =
      (NameMap.find? entries name).or (names.shortened.find? name) := by
  induction entries generalizing names with
  | nil => rfl
  | cons entry entries ih =>
    obtain ⟨first, short⟩ := entry
    obtain ⟨hfirst, hentries⟩ := List.forall_mem_cons.mp hvalues
    rw [List.foldl_cons, ih hentries, find?_assign, NameMap.find?_cons]
    by_cases hname : name = first
    · rw [if_pos hname, if_pos hname]
      cases hfind : NameMap.find? entries name with
      | none => rfl
      | some other =>
        have hother := hentries _ (NameMap.mem_of_find? hfind)
        rw [hname, hfirst] at hother
        rw [Option.or_some, Option.getD_some, ← hother]
        rfl
    · rw [if_neg hname, if_neg hname]

theorem assignAll_nextIndex (entries : NameMap String) (names : Generator) :
    (entries.foldl (fun names entry => names.assign entry.1 entry.2) names).nextIndex =
      names.nextIndex := by
  induction entries generalizing names with
  | nil => rfl
  | cons entry entries ih => exact ih (names.assign entry.1 entry.2)

theorem mem_used_assignAll {entries : NameMap String} {names : Generator} {name : String} :
    name ∈ (entries.foldl (fun names entry => names.assign entry.1 entry.2) names).used ↔
      name ∈ names.used ∨ ∃ entry ∈ entries, entry.2 = name := by
  induction entries generalizing names with
  | nil => simp
  | cons entry entries ih =>
    rw [List.foldl_cons, ih, mem_assign_used]
    simp only [List.mem_cons, exists_eq_or_imp]
    grind

end Generator

end GlslShrink
