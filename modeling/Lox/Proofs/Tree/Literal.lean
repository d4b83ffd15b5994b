import Lox.Proofs.Decimal.Printing
import Lox.Proofs.Scan.Spelling

/-!
# Texts of literals

The atoms that a program can have in it are written as words, apart from texts, which are written
between quotation marks.  A word ends at the first character that is not part of a word, and a text
at the next quotation mark, so an atom is found again in whatever its text stands in front of.
-/

namespace Lox

/-! ## Words -/

namespace Text

/-- The characters of names and of numbers. -/
def inWord (c : Char) : Bool :=
  continuesName c || c == '.'

def isWord (chars : List Char) : Bool :=
  !chars.isEmpty && chars.all inWord

theorem isWord_iff {chars : List Char} :
    isWord chars = true ↔ chars ≠ [] ∧ ∀ c ∈ chars, inWord c = true := by
  simp [isWord]

def isNumber (chars : List Char) : Bool :=
  isWord chars && chars.head?.any Char.isDigit

theorem inWord_of_isDigit {c : Char} (h : c.isDigit = true) : inWord c = true := by
  simp [inWord, continuesName, h]

/-- No word goes on with what follows. -/
def EndsWord (rest : List Char) : Prop :=
  ∀ c ∈ rest.head?, inWord c = false

theorem endsWord_nil : EndsWord [] := nofun

theorem endsWord_cons {c : Char} (h : inWord c = false) (rest : List Char) :
    EndsWord (c :: rest) := by
  intro d hd
  cases hd
  exact h

end Text

open Text

/-! ## Numbers -/

theorem Numeral.inWord_of_mem {n : Numeral} {c : Char} (h : c ∈ n.unsigned) : inWord c = true := by
  rcases List.mem_append.mp h with h | h
  · exact inWord_of_isDigit (n.isDigit c (List.mem_append_left _ h))
  · split_ifs at h
    · cases h
    · rcases List.mem_cons.mp h with rfl | h
      · rfl
      · exact inWord_of_isDigit (n.isDigit c (List.mem_append_right _ h))

theorem Numeral.isNumber_unsigned (n : Numeral) : isNumber n.unsigned = true := by
  obtain ⟨c, more, hwhole⟩ := List.exists_cons_of_ne_nil n.whole_ne_nil
  obtain ⟨rest, hrest⟩ : ∃ rest, n.unsigned = c :: rest :=
    ⟨_, by rw [unsigned, hwhole, List.cons_append]⟩
  have hword : isWord n.unsigned = true := isWord_iff.mpr ⟨by simp [hrest], fun _ ↦ n.inWord_of_mem⟩
  have hdigit : c.isDigit = true := n.isDigit c (by simp [hwhole])
  rw [isNumber, hword, hrest]
  exact hdigit

/-- A finite number that is read from digits is printed without a sign. -/
theorem Decimal.isNumber_toFloat {d : Decimal} (h : d.toFloat.isFinite = true) :
    isNumber (NumberStyle.plain.number d.toFloat).toList = true := by
  obtain ⟨n, htext, hnegative, -⟩ := exists_numeral h
  have hsign : n.negative = false := by
    have hle := Double.nearest_le d.value
    rw [hnegative, decide_eq_false_iff_not, toNat_toFloat]
    omega
  rw [htext, Numeral.text, hsign, String.toList_ofList]
  exact n.isNumber_unsigned

namespace Atom

/-! ## Atoms that are no texts -/

def IsPlain (a : Atom) : Prop :=
  ∀ s, a ≠ .text s

theorem isPlain_or_eq_text (a : Atom) : a.IsPlain ∨ ∃ s, a = .text s := by
  cases a with
  | nil | bool | number => exact .inl nofun
  | text s => exact .inr ⟨s, rfl⟩

def lettered : List (Atom × String) :=
  [(.nil, "nil"), (.bool true, "true"), (.bool false, "false"),
    (.number (Float.ofBits 0x7FF0000000000000), "inf")]

theorem isWord_of_mem_lettered {entry : Atom × String} (h : entry ∈ lettered) :
    isWord entry.2.toList = true ∧ isNumber entry.2.toList = false := by
  have hwords : ∀ word ∈ lettered.map Prod.snd,
      isWord word.toList = true ∧ isNumber word.toList = false := by
    decide +kernel
  exact hwords entry.2 (List.mem_map_of_mem h)

/-- Apart from texts, what can be written is written with letters, or it is a finite number and
written with digits. -/
theorem Writable.cases_of_isPlain {a : Atom} (h : a.Writable) (hplain : a.IsPlain) :
    (a, a.source) ∈ lettered ∨
      ∃ x : Float, a = .number x ∧ x.isFinite = true ∧ isNumber a.source.toList = true := by
  cases a with
  | nil => exact .inl (by simp [lettered, source, display])
  | bool b => cases b <;> exact .inl (by simp [lettered, source, display])
  | text s => exact absurd rfl (hplain s)
  | number x =>
    obtain ⟨d, rfl⟩ := h
    rcases d.isFinite_or_eq_infinity with hfinite | hinfinity
    · exact .inr ⟨_, rfl, hfinite, Decimal.isNumber_toFloat hfinite⟩
    · have hsource : (Atom.number (Float.ofBits 0x7FF0000000000000)).source = "inf" := by
        decide +kernel
      rw [hinfinity, hsource]
      simp [lettered]

theorem Writable.isWord {a : Atom} (h : a.Writable) (hplain : a.IsPlain) :
    isWord a.source.toList = true := by
  rcases h.cases_of_isPlain hplain with hmem | ⟨x, -, -, hnumber⟩
  · exact (isWord_of_mem_lettered hmem).1
  · exact (Bool.and_eq_true_iff.mp hnumber).1

/-- Different atoms that are no texts are written differently. -/
theorem Writable.source_inj {a b : Atom} (ha : a.Writable) (hb : b.Writable) (hplain : a.IsPlain)
    (hplain' : b.IsPlain) (h : a.source = b.source) : a = b := by
  have hnodup : (lettered.map Prod.snd).Nodup := by decide
  have hne {word : String} (hnumber : isNumber word.toList = true) :
      ∀ entry ∈ lettered, entry.2 ≠ word := by
    rintro entry hmem rfl
    rw [(isWord_of_mem_lettered hmem).2] at hnumber
    cases hnumber
  rcases ha.cases_of_isPlain hplain with hmem | ⟨x, rfl, hfinite, hnumber⟩
  · rcases hb.cases_of_isPlain hplain' with hmem' | ⟨y, rfl, -, hnumber⟩
    · exact congrArg Prod.fst (List.inj_on_of_nodup_map hnodup hmem hmem' h)
    · exact absurd h (hne hnumber _ hmem)
  · rcases hb.cases_of_isPlain hplain' with hmem' | ⟨y, rfl, hfinite', -⟩
    · exact absurd h.symm (hne hnumber _ hmem')
    · rw [number_injective hfinite' hfinite h]

/-! ## All atoms -/

theorem source_text (s : String) : (Atom.text s).source.toList = '"' :: (s.toList ++ ['"']) := by
  simp [source]

theorem Writable.exists_cons_of_isPlain {a : Atom} (h : a.Writable) (hplain : a.IsPlain) :
    ∃ c rest, a.source.toList = c :: rest ∧ inWord c = true := by
  obtain ⟨hne, hword⟩ := isWord_iff.mp (h.isWord hplain)
  obtain ⟨c, rest, hsource⟩ := List.exists_cons_of_ne_nil hne
  exact ⟨c, rest, hsource, hword c (by simp [hsource])⟩

/-- What can be written begins a word or a quotation. -/
theorem Writable.exists_cons {a : Atom} (h : a.Writable) :
    ∃ c rest, a.source.toList = c :: rest ∧ (inWord c = true ∨ c = '"') := by
  rcases a.isPlain_or_eq_text with hplain | ⟨s, rfl⟩
  · obtain ⟨c, rest, hsource, hc⟩ := h.exists_cons_of_isPlain hplain
    exact ⟨c, rest, hsource, .inl hc⟩
  · exact ⟨'"', _, source_text s, .inr rfl⟩

/-- What can be written begins neither with a blank nor with a parenthesis or another mark. -/
theorem Writable.append_ne {a : Atom} (h : a.Writable) {c : Char} (hword : inWord c = false)
    (hquote : c ≠ '"') (rest rest' : List Char) : a.source.toList ++ rest ≠ c :: rest' := by
  intro heq
  obtain ⟨d, more, hsource, hd⟩ := h.exists_cons
  rw [hsource] at heq
  obtain ⟨rfl, -⟩ := List.cons.inj heq
  rcases hd with hd | hd
  · rw [hword] at hd
    cases hd
  · exact hquote hd

/-- A word does not begin as a quotation does. -/
theorem text_append_ne {a : Atom} (h : a.Writable) (hplain : a.IsPlain) (s : String)
    (rest rest' : List Char) :
    (Atom.text s).source.toList ++ rest ≠ a.source.toList ++ rest' := by
  intro heq
  obtain ⟨c, more, hsource, hc⟩ := h.exists_cons_of_isPlain hplain
  rw [source_text, hsource] at heq
  obtain ⟨rfl, -⟩ := List.cons.inj heq
  cases hc

/-- Where the text of one atom ends the other does, and they are the same. -/
theorem Writable.append_inj {a b : Atom} (ha : a.Writable) (hb : b.Writable)
    {rest rest' : List Char} (hrest : EndsWord rest) (hrest' : EndsWord rest')
    (h : a.source.toList ++ rest = b.source.toList ++ rest') : a = b ∧ rest = rest' := by
  rcases a.isPlain_or_eq_text with hplain | ⟨s, rfl⟩
  · rcases b.isPlain_or_eq_text with hplain' | ⟨t, rfl⟩
    · obtain ⟨hsource, hrests⟩ := run_append_inj (isWord_iff.mp (ha.isWord hplain)).2
        (isWord_iff.mp (hb.isWord hplain')).2 hrest hrest' h
      exact ⟨ha.source_inj hb hplain hplain' (String.toList_inj.mp hsource), hrests⟩
    · exact absurd h.symm (text_append_ne ha hplain t _ _)
  · rcases b.isPlain_or_eq_text with hplain' | ⟨t, rfl⟩
    · exact absurd h (text_append_ne hb hplain' s _ _)
    · rw [source_text, source_text] at h
      simp only [List.cons_append, List.append_assoc, List.nil_append, List.cons.injEq,
        true_and] at h
      obtain ⟨htext, hrests⟩ := run_append_inj (forall_bne_of_not_mem ha)
        (forall_bne_of_not_mem hb) (by simp) (by simp) h
      rw [String.toList_inj.mp htext]
      exact ⟨rfl, (List.cons.inj hrests).2⟩

end Atom

end Lox
