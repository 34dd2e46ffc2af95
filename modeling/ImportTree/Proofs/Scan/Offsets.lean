import ImportTree.Proofs.Markup.Recovery
import ImportTree.Proofs.Scan.Run
import ImportTree.Proofs.Script.Positions
import Mathlib.Data.List.TakeWhile

/-!
# Searches in bytes

A mark of ASCII characters is found in the bytes of a text where it is found in the text itself, since no byte of any
other character is one of its bytes. So is the first byte that an ASCII rule tells apart.
-/

namespace ImportTree.Scan

open Script (bytes)

variable {P : Advance → Prop} {c d : Char} {mark cs : List Char} {b : UInt8} {bs : List UInt8}

/-- The offset of the first occurrence of some bytes. -/
def find? (mark bs : List UInt8) : Option Nat :=
  bs.tails.findIdx? mark.isPrefixOf

def lowerByte (b : UInt8) : UInt8 :=
  if 'A'.toUInt8 ≤ b ∧ b ≤ 'Z'.toUInt8 then b + 32 else b

/-! ## Marks -/

def Ascii (mark : List Char) : Prop :=
  ∀ c ∈ mark, c.toNat < 0x80

instance (mark : List Char) : Decidable (Ascii mark) :=
  List.decidableBAll (fun c : Char => c.toNat < 0x80) mark

theorem bytes_prefix_iff (hmark : Ascii mark) : bytes mark <+: bytes cs ↔ mark <+: cs := by
  induction mark generalizing cs with
  | nil => simp [bytes]
  | cons d mark ih =>
      obtain ⟨hd, hmark⟩ := List.forall_mem_cons.mp hmark
      rw [Script.bytes_cons_ascii hd]
      constructor
      · rintro ⟨tail, htail⟩
        have hhead : cs.head? = some d := by rw [← Script.head?_bytes hd, ← htail, List.cons_append, List.head?_cons]
        obtain ⟨rest, rfl⟩ := List.head?_eq_some_iff.mp hhead
        rw [Script.bytes_cons_ascii hd, List.cons_append, List.cons.injEq] at htail
        exact List.cons_prefix_cons.mpr ⟨rfl, (ih hmark).mp ⟨tail, htail.2⟩⟩
      · intro h
        obtain ⟨rest, rfl⟩ := h
        rw [List.cons_append, Script.bytes_cons_ascii hd, List.cons_prefix_cons]
        exact ⟨rfl, (ih hmark).mpr (List.prefix_append ..)⟩

theorem find?_cons (mark : List UInt8) (b : UInt8) (bs : List UInt8) : find? mark (b :: bs) =
    if mark.isPrefixOf (b :: bs) then some 0 else (find? mark bs).map (· + 1) := by
  rw [find?, List.tails_cons, List.findIdx?_cons, find?]

theorem find?_front {mark : List UInt8} (h : mark <+: bs) : find? mark bs = some 0 := by
  rw [← List.isPrefixOf_iff_prefix] at h
  cases bs with
  | nil => simp [find?, h]
  | cons b bs => rw [find?_cons, if_pos h]

/-- A mark of ASCII characters is found behind the bytes of what stands before it. -/
theorem find?_bytes (hmark : Ascii mark) (hne : mark ≠ []) (cs : List Char) : find? (bytes mark) (bytes cs) =
    (Text.cutBefore? mark.isPrefixOf cs).map fun cut => (bytes cut.1).length := by
  -- No mark begins at a byte of a character beyond ASCII.
  have hhigh (b : UInt8) (bs : List UInt8) (hb : 0x80 ≤ b.toNat) :
      find? (bytes mark) (b :: bs) = (find? (bytes mark) bs).map (· + 1) := by
    obtain ⟨d, mark, rfl⟩ := List.exists_cons_of_ne_nil hne
    have hd := hmark d (List.mem_cons_self ..)
    rw [find?_cons, Script.bytes_cons_ascii hd, if_neg]
    rw [List.isPrefixOf_iff_prefix, List.cons_prefix_cons]
    exact fun h => Script.ne_toUInt8 hb hd h.1.symm
  induction cs with
  | nil =>
      obtain ⟨d, mark, rfl⟩ := List.exists_cons_of_ne_nil hne
      rw [Script.bytes_cons_ascii (hmark d (List.mem_cons_self ..))]
      rfl
  | cons c cs ih =>
      rw [Text.cutBefore?]
      split
      next h =>
        rw [find?_front ((bytes_prefix_iff hmark).mpr (List.isPrefixOf_iff_prefix.mp h))]
        rfl
      next h =>
        rw [Script.bytes_cons, Script.Bytewise.find_plain hhigh, ih]
        · cases Text.cutBefore? mark.isPrefixOf cs with
          | none => rfl
          | some cut =>
              simp only [Option.map_some, Script.bytes_cons, List.length_append, Option.some.injEq]
              omega
        · intro hc
          rw [find?_cons, if_neg]
          rw [← Script.bytes_cons_ascii hc, List.isPrefixOf_iff_prefix, bytes_prefix_iff hmark,
            ← List.isPrefixOf_iff_prefix]
          exact h

theorem find?_around (hmark : Ascii mark) (hne : mark ≠ []) (cs : List Char) : find? (bytes mark) (bytes cs) =
    (Text.cutAround? mark cs).map fun cut => (bytes cut.1).length := by
  rw [find?_bytes hmark hne, Text.cutAround?]
  cases Text.cutBefore? mark.isPrefixOf cs <;> rfl

theorem find?_char (hd : d.toNat < 0x80) (body : List Char) (hbody : d ∉ body) (rest : List Char) :
    find? (bytes [d]) (bytes (body ++ d :: rest)) = some (bytes body).length := by
  have hcut : Text.cutAround? [d] (body ++ d :: rest) = some (body, rest) :=
    Text.cutAround?_first (by simp [Unbordered]) ((List.singleton_infix_iff d body).not.mpr hbody) rest
  rw [find?_around (by simpa [Ascii] using hd) (List.cons_ne_nil d []), hcut]
  rfl

theorem find?_char_none (hd : d.toNat < 0x80) (h : d ∉ cs) : find? (bytes [d]) (bytes cs) = none := by
  rw [find?_around (by simpa [Ascii] using hd) (List.cons_ne_nil d []),
    Text.cutAround?_eq_none_iff.mpr ((List.singleton_infix_iff d cs).not.mpr h)]
  rfl

/-! ## Rules for bytes -/

theorem forall_byte {P : UInt8 → Prop} (h : ∀ n < 256, P (UInt8.ofNat n)) (b : UInt8) : P b :=
  UInt8.ofNat_toNat (x := b) ▸ h b.toNat b.toNat_lt

/-- A rule for bytes that is one for ASCII characters, and treats all other bytes alike, is a rule for characters. -/
theorem forall_mem_utf8EncodeChar {p : UInt8 → Bool} {P : Char → Bool} (high : Bool)
    (hascii : ∀ n < 0x80, p (Char.ofNat n).toUInt8 = P (Char.ofNat n))
    (hbyte : ∀ b : UInt8, 0x80 ≤ b.toNat → p b = high) (hchar : ∀ c : Char, ¬c.toNat < 0x80 → P c = high)
    (c : Char) (b : UInt8) (hb : b ∈ String.utf8EncodeChar c) : p b = P c := by
  by_cases hc : c.toNat < 0x80
  · rw [Script.utf8EncodeChar_ascii hc, List.mem_singleton] at hb
    rw [hb]
    exact Script.forall_ascii (P := fun c => p c.toUInt8 = P c) hascii hc
  · rw [hbyte b (Script.high_utf8EncodeChar hc b hb), hchar c hc]

theorem not_blank_of_high (hc : ¬c.toNat < 0x80) : Text.isAsciiBlank c = false := by
  have hblank : c ∉ [' ', '\t', '\n', '\x0c', '\r'] := Script.Bytewise.notMem_of_high hc (by decide)
  simpa [Text.isAsciiBlank, and_assoc] using hblank

theorem blank_utf8EncodeChar (c : Char) (b : UInt8) (hb : b ∈ String.utf8EncodeChar c) :
    Script.Bytewise.isBlank b = Text.isAsciiBlank c :=
  forall_mem_utf8EncodeChar (p := Script.Bytewise.isBlank) false (by decide +kernel) (forall_byte (by decide +kernel))
    (fun _ => not_blank_of_high) c b hb

/-- A text divided behind its first characters that meet a condition. -/
theorem exists_run (P : Char → Bool) (cs : List Char) :
    ∃ run rest, cs = run ++ rest ∧ (∀ c ∈ run, P c = true) ∧ ∀ c ∈ rest.head?, P c = false := by
  refine ⟨cs.takeWhile P, cs.dropWhile P, List.takeWhile_append_dropWhile.symm,
    fun c hc => List.mem_takeWhile_imp hc, fun c hc => ?_⟩
  have hstop := List.head?_dropWhile_not P cs
  rw [hc] at hstop
  simpa using hstop

theorem ends_skipWhile_run {p : UInt8 → Bool} {P : Char → Bool} {front run rest : List Char} {text : List Char}
    (hp : ∀ c, ∀ b ∈ String.utf8EncodeChar c, p b = P c) (htext : text = front ++ (run ++ rest))
    (hrun : ∀ c ∈ run, P c = true) (hrest : ∀ c ∈ rest.head?, P c = false) :
    Ends Advance.Inside (skipWhile (bytes text) p (bytes front).length) (bytes (front ++ run)).length := by
  have hskip := ends_skipWhile p (bytes front) (bytes (run ++ rest))
  rw [Script.takeWhile_bytes hp, takeWhile_run hrun hrest, ← Script.bytes_append, ← htext] at hskip
  rwa [Script.bytes_append front run, List.length_append]

/-! ## What stands behind some characters -/

theorem ends_behind (front cs : List Char) :
    Ends P (between (bytes (front ++ cs)) (bytes front).length (bytes (front ++ cs)).length) (bytes cs) := by
  rw [Script.bytes_append]
  exact ends_between_end _ _ rfl

theorem length_bytes_append (cs cs' : List Char) :
    (bytes (cs ++ cs')).length = (bytes cs).length + (bytes cs').length := by
  rw [Script.bytes_append, List.length_append]

theorem inside_characters {text : List Char} (front read rest : List Char) (htext : text = front ++ (read ++ rest))
    (hread : read ≠ []) : Advance.Inside ⟨bytes text, (bytes front).length, (bytes (front ++ read)).length⟩ := by
  have hpos := List.length_pos_iff.mpr (Script.bytes_ne_nil hread)
  constructor <;> simp only [htext, length_bytes_append] <;> omega

theorem length_append_singleton (hd : d.toNat < 0x80) (front : List Char) :
    (bytes (front ++ [d])).length = (bytes front).length + 1 := by
  rw [length_bytes_append, Script.bytes_cons_ascii hd]
  rfl

theorem getElem?_bytes (front cs : List Char) : (bytes (front ++ cs))[(bytes front).length]? = (bytes cs).head? := by
  rw [Script.bytes_append, List.getElem?_append_right le_rfl, Nat.sub_self, List.head?_eq_getElem?]

/-- The byte where a character begins is that of an ASCII character if the character is the same. -/
theorem exists_getElem?_bytes (front : List Char) (c : Char) (cs : List Char) :
    ∃ b, (bytes (front ++ c :: cs))[(bytes front).length]? = some b ∧
      ∀ d : Char, d.toNat < 0x80 → (b = d.toUInt8 ↔ c = d) := by
  obtain ⟨b, hs, hbytes, -⟩ := Script.utf8EncodeChar_cons c
  have hhead : (bytes (c :: cs)).head? = some b := by
    rw [Script.bytes_cons, hbytes]
    rfl
  refine ⟨b, (getElem?_bytes front (c :: cs)).trans hhead, fun d hd => ?_⟩
  have hiff := Script.head?_bytes hd (c :: cs)
  rw [hhead, List.head?_cons, Option.some.injEq, Option.some.injEq] at hiff
  exact hiff

/-! ## Case -/

theorem map_lowerByte (cs : List Char) : (bytes cs).map lowerByte = bytes (Text.lower cs) := by
  induction cs with
  | nil => rfl
  | cons c cs ih =>
      have hlower : Text.lower (c :: cs) = c.toLower :: Text.lower cs := rfl
      rw [hlower, Script.bytes_cons, Script.bytes_cons, List.map_append, ih]
      congr 1
      by_cases hc : c.toNat < 0x80
      · exact Script.forall_ascii
          (P := fun c => (String.utf8EncodeChar c).map lowerByte = String.utf8EncodeChar c.toLower)
          (by decide +kernel) hc
      · -- Neither a character beyond ASCII nor any of its bytes has another case.
        have hchar : c.toLower = c := by
          have hupper : ¬(c ≥ 'A' ∧ c ≤ 'Z') := fun h => hc (lt_of_le_of_lt (show c.toNat ≤ 90 from h.2) (by decide))
          exact dif_neg hupper
        have hbytes : ∀ b ∈ String.utf8EncodeChar c, lowerByte b = b := fun b hb =>
          forall_byte (P := fun b => 0x80 ≤ b.toNat → lowerByte b = b) (by decide +kernel) b
            (Script.high_utf8EncodeChar hc b hb)
        rw [hchar, List.map_congr_left hbytes]
        exact List.map_id _

theorem cutBefore?_lower (hlower : Text.lower mark = mark) (cs : List Char) :
    Text.cutBefore? mark.isPrefixOf (Text.lower cs) =
      (Text.cutBefore? (Text.startsWithLetters mark) cs).map fun cut => (Text.lower cut.1, Text.lower cut.2) := by
  have hmarked (cs : List Char) : mark.isPrefixOf (Text.lower cs) = Text.startsWithLetters mark cs := by
    rw [Bool.eq_iff_iff, List.isPrefixOf_iff_prefix, Text.startsWithLetters_iff, hlower]
  induction cs with
  | nil =>
      have hnil := hmarked []
      change mark.isPrefixOf [] = _ at hnil
      change Text.cutBefore? mark.isPrefixOf [] = _
      rw [Text.cutBefore?, Text.cutBefore?, hnil]
      split <;> rfl
  | cons c cs ih =>
      have hcons := hmarked (c :: cs)
      change mark.isPrefixOf (c.toLower :: Text.lower cs) = _ at hcons
      change Text.cutBefore? mark.isPrefixOf (c.toLower :: Text.lower cs) = _
      rw [Text.cutBefore?, Text.cutBefore?, hcons, ih]
      split
      next => rfl
      next => cases Text.cutBefore? (Text.startsWithLetters mark) cs <;> rfl

/-- A mark is found in any case of letters in the bytes in lower case. -/
theorem find?_lower (hmark : Ascii mark) (hne : mark ≠ []) (hlower : Text.lower mark = mark) (cs : List Char) :
    find? (bytes mark) ((bytes cs).map lowerByte) =
      (Text.cutBefore? (Text.startsWithLetters mark) cs).map fun cut => (bytes cut.1).length := by
  rw [map_lowerByte, find?_bytes hmark hne, cutBefore?_lower hlower, Option.map_map]
  refine congrArg (Option.map · _) (funext fun cut => ?_)
  rw [Function.comp_apply, ← map_lowerByte, List.length_map]

theorem ends_behind_lower (front cs : List Char) : Ends P
    (between ((bytes (front ++ cs)).map lowerByte) (bytes front).length ((bytes (front ++ cs)).map lowerByte).length)
    ((bytes cs).map lowerByte) := by
  rw [Script.bytes_append, List.map_append]
  exact ends_between_end _ _ (List.length_map ..).symm

end ImportTree.Scan
