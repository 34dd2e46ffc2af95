import ImportTree.Proofs.Script.Bytewise
import ImportTree.Proofs.Script.Declared
import ImportTree.Proofs.Text.Utf8

/-!
# Positions in a masked script

Masking moves nothing. What a search finds in the masked script stands at the same offset and on the same line in the
script itself, outside all comments, and no two calls that declare names of one kind stand at the same offset.
-/

namespace ImportTree.Script

variable {form : CallForm} {before : Option Char} {skip offset line : Nat} {cs masked pre post : List Char}
  {cells : List Cell} {words : List Keyword} {call : Call}

/-! ## What masking leaves -/

/-- Whether bytes are those of a text with blanks in the place of some of them, but of no line feed. -/
structure Blanked (text out : List UInt8) : Prop where
  length : out.length = text.length
  lines (i : Nat) : out[i]? = some '\n'.toUInt8 ↔ text[i]? = some '\n'.toUInt8
  others (i : Nat) : out[i]? = text[i]? ∨ out[i]? = some ' '.toUInt8

theorem blanked_cells (cells : List Cell) : Blanked (cells.map Cell.byte) (cells.map Cell.shown) where
  length := by rw [List.length_map, List.length_map]
  lines i := by
    rw [List.getElem?_map, List.getElem?_map]
    cases cells[i]? with
    | none => exact Iff.rfl
    | some cell =>
        rw [Option.map_some, Option.map_some, Option.some.injEq, Option.some.injEq]
        exact cell.shown_eq_newline
  others i := by
    rw [List.getElem?_map, List.getElem?_map]
    cases cells[i]? with
    | none => exact .inl rfl
    | some cell =>
        rw [Option.map_some, Option.map_some, Cell.shown]
        split
        next => exact .inr rfl
        next => exact .inl rfl

theorem bytes_eq_encode (cs : List Char) : bytes cs = Text.Utf8.encode cs :=
  List.flatMap_congr fun c _ => (Text.Utf8.encodeChar_eq c).symm

theorem count_bytes (cs : List Char) : (bytes cs).count '\n'.toUInt8 = cs.count '\n' := by
  induction cs with
  | nil => rfl
  | cons c cs ih =>
      rw [bytes_cons, List.count_append, ih, List.count_cons]
      by_cases hc : c = '\n'
      · rw [hc, utf8EncodeChar_ascii (by decide), List.count_singleton_self, Nat.add_comm]
        rfl
      · have hbytes : (String.utf8EncodeChar c).count '\n'.toUInt8 = 0 :=
          List.count_eq_zero.mpr (notMem_utf8EncodeChar hc)
        simp [hbytes, hc]

theorem count_shown (cells : List Cell) :
    (cells.map Cell.shown).count '\n'.toUInt8 = (cells.map Cell.byte).count '\n'.toUInt8 := by
  rw [List.count_eq_countP, List.count_eq_countP, List.countP_map, List.countP_map]
  refine List.countP_congr fun cell _ => ?_
  simpa using cell.shown_eq_newline

theorem Cell.eq_ofByte {cell : Cell} (h : cell.shown ≠ ' '.toUInt8) : cell = .ofByte false cell.shown := by
  obtain ⟨byte, masked, _⟩ := cell
  cases masked with
  | true => exact absurd rfl h
  | false => rfl

/-! ## Found calls -/

/-- A search gives calls where its form reads one, with the offset and the line of that place. -/
theorem mem_callsFrom (h : call ∈ callsFrom form skip before offset line cs) : ∃ pre post, cs = pre ++ post ∧
    call.offset = offset + pre.length ∧ call.line = line + pre.count '\n' ∧ form post ≠ none := by
  induction cs generalizing skip before offset line with
  | nil => simp [callsFrom] at h
  | cons c cs ih =>
      have hbehind {skip : Nat} {before : Option Char}
          (h : call ∈ callsFrom form skip before (offset + 1) (if c = '\n' then line + 1 else line) cs) :
          ∃ pre post, c :: cs = pre ++ post ∧ call.offset = offset + pre.length ∧ call.line = line + pre.count '\n' ∧
            form post ≠ none := by
        obtain ⟨pre, post, rfl, hoffset, hline, hform⟩ := ih h
        refine ⟨c :: pre, post, rfl, ?_, hline.trans (line_cons line c pre), hform⟩
        rw [hoffset, List.length_cons, Nat.add_assoc, Nat.add_comm 1]
      cases skip with
      | succ skip => exact hbehind h
      | zero =>
          rw [callsFrom] at h
          split at h
          next name rest hread =>
            rcases List.mem_cons.mp h with rfl | h
            · refine ⟨[], c :: cs, rfl, rfl, rfl, fun hnone => ?_⟩
              rw [hnone, ite_self] at hread
              cases hread
            · exact hbehind h
          next => exact hbehind h

theorem callsFrom_increasing (form : CallForm) (skip : Nat) (before : Option Char) (offset line : Nat)
    (cs : List Char) : (callsFrom form skip before offset line cs).Pairwise fun a b => a.offset < b.offset := by
  induction cs generalizing skip before offset line with
  | nil => simp [callsFrom]
  | cons c cs ih =>
      cases skip with
      | succ skip => exact ih ..
      | zero =>
          rw [callsFrom]
          split
          next =>
            refine .cons (fun call hcall => ?_) (ih ..)
            obtain ⟨pre, _, _, hoffset, _⟩ := mem_callsFrom hcall
            rw [hoffset]
            exact Nat.lt_add_right _ (Nat.lt_succ_self offset)
          next => exact ih ..

theorem mem_calls (h : call ∈ calls form masked) : ∃ pre post, masked = pre ++ post ∧ call.offset = pre.length ∧
    call.line = 1 + pre.count '\n' ∧ form post ≠ none := by
  obtain ⟨pre, post, hmasked, hoffset, hplace⟩ := mem_callsFrom h
  exact ⟨pre, post, hmasked, hoffset.trans (Nat.zero_add _), hplace⟩

/-! ## Calls that declare elements -/

theorem quotedName?_brace (h : (cs.dropWhile Text.isSpace).head? = some '\x7b') : quotedName? cs = none := by
  obtain ⟨rest, hrest⟩ := List.head?_eq_some_iff.mp h
  rw [quotedName?, hrest]
  rfl

/-- What stands behind the bracket of a call tells the two forms apart. -/
theorem namedCall_of_objectCall {word : List Char} (h : objectCall word cs ≠ none) : namedCall word cs = none := by
  unfold objectCall at h
  unfold namedCall
  split at h
  next tail hword =>
    split at h
    next inner hparen =>
      split at h
      next rest hbrace =>
        have hbrace : passChar? '\x7b' inner ≠ none := by rw [hbrace]; exact Option.some_ne_none _
        exact quotedName?_brace (passChar?_ne_none hbrace)
      next => exact absurd rfl h
    next => exact absurd rfl h
  next => exact absurd rfl h

theorem merge_increasing {a b : List Call} (ha : a.Pairwise fun x y => x.offset < y.offset)
    (hb : b.Pairwise fun x y => x.offset < y.offset) (hapart : ∀ x ∈ a, ∀ y ∈ b, x.offset ≠ y.offset) :
    (merge a b).Pairwise fun x y => x.offset < y.offset := by
  have hnodup : ((merge a b).map Call.offset).Nodup := by
    refine ((merge_perm a b).map Call.offset).nodup_iff.mpr (List.pairwise_map.mpr ?_)
    exact List.pairwise_append.mpr ⟨ha.imp Nat.ne_of_lt, hb.imp Nat.ne_of_lt, hapart⟩
  exact (merge_ordered a b).imp₂ (fun x y => Nat.lt_of_le_of_ne) (List.pairwise_map.mp hnodup)

/-- No call is found twice, once in either form. -/
theorem elementCalls_increasing (masked : List Char) :
    (elementCalls masked).Pairwise fun a b => a.offset < b.offset := by
  refine merge_increasing (callsFrom_increasing ..) (callsFrom_increasing ..) fun x hx y hy hoffset => ?_
  -- At the same offset both forms would read the same text.
  obtain ⟨pre, post, hmasked, hx, _, hobject⟩ := mem_calls hx
  obtain ⟨pre', post', hmasked', hy, _, hnamed⟩ := mem_calls hy
  have hlength : pre.length = pre'.length := by rw [← hx, ← hy, hoffset]
  obtain ⟨rfl, rfl⟩ := List.append_inj (hmasked.symm.trans hmasked') hlength
  exact hnamed (namedCall_of_objectCall hobject)

/-! ## Places of declarations -/

def Call.byteOffset (masked : List Char) (call : Call) : Nat :=
  (bytes (masked.take call.offset)).length

theorem bytes_ne_nil (h : cs ≠ []) : bytes cs ≠ [] := by
  obtain ⟨c, cs, rfl⟩ := List.exists_cons_of_ne_nil h
  obtain ⟨b, hs, hbytes, _⟩ := utf8EncodeChar_cons c
  simp [bytes_cons, hbytes]

theorem Call.byteOffset_lt {a b : Call} (h : a.offset < b.offset) (hb : b.offset ≤ masked.length) :
    a.byteOffset masked < b.byteOffset masked := by
  obtain ⟨k, hk⟩ := Nat.exists_eq_add_of_lt h
  have hbetween : (masked.drop a.offset).take (k + 1) ≠ [] := by
    rw [← List.length_pos_iff, List.length_take, List.length_drop]
    omega
  rw [byteOffset, byteOffset, hk, Nat.add_assoc, List.take_add, bytes_append, List.length_append]
  exact Nat.lt_add_of_pos_right (List.length_pos_iff.mpr (bytes_ne_nil hbetween))

/-- Whether one of some keywords stands at an offset of a script and on a line, with none of its bytes masked. -/
def Stands (words : List Keyword) (cells : List Cell) (offset line : Nat) : Prop :=
  (∃ k ∈ words, Cell.ofBytes false (bytes k.word) <+: cells.drop offset) ∧
    line = 1 + ((cells.map Cell.byte).take offset).count '\n'.toUInt8

theorem notMem_space_word (k : Keyword) : ' '.toUInt8 ∉ bytes k.word := by
  cases k <;> decide +kernel

/-- What is shown of a keyword is no blank, so none of its bytes is masked. -/
theorem ofBytes_prefix_of_shown {cells : List Cell} {bs rest : List UInt8} (h : cells.map Cell.shown = bs ++ rest)
    (hspace : ' '.toUInt8 ∉ bs) : Cell.ofBytes false bs <+: cells := by
  obtain ⟨front, back, rfl, rfl, _⟩ := List.map_eq_append_iff.mp h
  refine ⟨back, congrArg (· ++ back) ?_⟩
  rw [Cell.ofBytes, List.map_map]
  refine (List.map_congr_left fun cell hcell => (Cell.eq_ofByte fun hblank => hspace ?_).symm).trans (List.map_id front)
  exact hblank ▸ List.mem_map_of_mem hcell

theorem stands_of_shown {k : Keyword} {tail : List Char}
    (hshown : cells.map Cell.shown = bytes (pre ++ (k.word ++ tail)))
    (hk : k ∈ words) : Stands words cells (bytes pre).length (1 + pre.count '\n') := by
  rw [bytes_append] at hshown
  constructor
  · have hdrop : (cells.drop (bytes pre).length).map Cell.shown = bytes k.word ++ bytes tail := by
      rw [List.map_drop, hshown, List.drop_left, bytes_append]
    exact ⟨k, hk, ofBytes_prefix_of_shown hdrop (notMem_space_word k)⟩
  · have htake : (cells.take (bytes pre).length).map Cell.shown = bytes pre := by
      rw [List.map_take, hshown, List.take_left]
    rw [← List.map_take, ← count_shown, htake, count_bytes]

/-- Whether a call stands where a masked script has one of some keywords. -/
def Call.OnKeyword (words : List Keyword) (masked : List Char) (call : Call) : Prop :=
  ∃ pre tail, ∃ k ∈ words, masked = pre ++ (k.word ++ tail) ∧ call.offset = pre.length ∧
    call.line = 1 + pre.count '\n'

theorem onKeyword_of_mem (hform : ∀ cs, form cs ≠ none → ∃ k ∈ words, ∃ tail, cs = k.word ++ tail)
    (h : call ∈ calls form masked) : call.OnKeyword words masked := by
  obtain ⟨pre, post, rfl, hoffset, hline, hread⟩ := mem_calls h
  obtain ⟨k, hk, tail, rfl⟩ := hform post hread
  exact ⟨pre, tail, k, hk, rfl, hoffset, hline⟩

theorem elementCalls_onKeyword (h : call ∈ elementCalls masked) : call.OnKeyword [.polymer] masked := by
  rcases List.mem_append.mp ((merge_perm _ _).mem_iff.mp h) with h | h
  · refine onKeyword_of_mem (fun cs hread => ?_) h
    obtain ⟨tail, hcs, _⟩ := objectCall_ne_none hread
    exact ⟨.polymer, List.mem_singleton_self _, tail, hcs⟩
  · refine onKeyword_of_mem (fun cs hread => ?_) h
    obtain ⟨tail, hcs, _⟩ := namedCall_ne_none hread
    exact ⟨.polymer, List.mem_singleton_self _, tail, hcs⟩

theorem moduleCalls_onKeyword (h : call ∈ moduleCalls masked) : call.OnKeyword [.modulate, .define] masked := by
  refine onKeyword_of_mem (fun cs hread => ?_) h
  unfold moduleDefinition at hread
  split at hread
  next found hfound =>
    obtain ⟨tail, hcs, _⟩ := namedCall_ne_none (hfound ▸ Option.some_ne_none found)
    exact ⟨.modulate, by decide, tail, hcs⟩
  next =>
    obtain ⟨tail, hcs, _⟩ := namedCall_ne_none hread
    exact ⟨.define, by decide, tail, hcs⟩

/-- Calls that increase stand at offsets of the script that increase, on the lines they are found on. -/
theorem exists_offsets {found : List Call} (hshown : cells.map Cell.shown = bytes masked)
    (hfound : ∀ call ∈ found, call.OnKeyword words masked) (hlt : found.Pairwise fun a b => a.offset < b.offset) :
    ∃ offsets : List Nat, offsets.Pairwise (· < ·) ∧
      List.Forall₂ (Stands words cells) offsets (found.map Call.line) := by
  refine ⟨found.map (Call.byteOffset masked), List.pairwise_map.mpr (hlt.imp_of_mem fun _ hb hab => ?_), ?_⟩
  · obtain ⟨pre, tail, k, _, rfl, hoffset, _⟩ := hfound _ hb
    refine Call.byteOffset_lt hab ?_
    rw [hoffset, List.length_append]
    exact Nat.le_add_right ..
  · rw [List.forall₂_map_left_iff, List.forall₂_map_right_iff, List.forall₂_same]
    intro call hcall
    obtain ⟨pre, tail, k, hk, rfl, hoffset, hline⟩ := hfound call hcall
    rw [Call.byteOffset, hoffset, List.take_left, hline]
    exact stands_of_shown hshown hk

/-- Masking leaves UTF-8 in which nothing has moved, and what a script declares is placed on the lines of keywords that
stand in its code, each of them once. -/
theorem read_positions {text : String} {masked : List Char} (h : mask text = .ok masked) :
    ∃ cells, Bytewise.scan none (bytes text.toList) = some cells ∧ cells.map Cell.byte = bytes text.toList ∧
      Text.Utf8.decode? (cells.map Cell.shown) = some masked ∧
      Text.Utf8.decodeLossy (cells.map Cell.shown) = masked ∧
      Blanked (bytes text.toList) (cells.map Cell.shown) ∧
      ∀ attach, ∃ metadata elementsAt modulesAt, read text attach = .ok metadata ∧
        elementsAt.Pairwise (· < ·) ∧ modulesAt.Pairwise (· < ·) ∧
        List.Forall₂ (Stands [.polymer] cells) elementsAt (metadata.elements.map (·.line)) ∧
        List.Forall₂ (Stands [.modulate, .define] cells) modulesAt (metadata.modules.map (·.line)) := by
  obtain ⟨cells, hscan, hshown⟩ := Bytewise.scan_mask h
  have hbytes := Bytewise.scan_byte hscan
  refine ⟨cells, hscan, hbytes, ?_, ?_, hbytes ▸ blanked_cells cells, fun attach => ?_⟩
  · rw [hshown, bytes_eq_encode, Text.Utf8.decode?_encode]
  · rw [hshown, bytes_eq_encode, Text.Utf8.decodeLossy_encode]
  · obtain ⟨elementsAt, helementsAt, helements⟩ :=
      exists_offsets hshown (fun _ => elementCalls_onKeyword) (elementCalls_increasing masked)
    obtain ⟨modulesAt, hmodulesAt, hmodules⟩ :=
      exists_offsets hshown (fun _ => moduleCalls_onKeyword) (callsFrom_increasing ..)
    rw [read, h]
    refine ⟨_, elementsAt, modulesAt, rfl, helementsAt, hmodulesAt, ?_, ?_⟩
    · rw [List.map_map]
      exact helements
    · rw [List.map_map]
      exact hmodules

/-- The backslash escapes the first byte of a character of two bytes. -/
theorem read_positions_of_accents :
    let text := "/* é */ s = '\\é';\nPolymer('a'); // Polymer('ü')\ndefine('b');\nPolymer(\x7bis: 'c'\x7d);"
    let masked := "         s = '\\é';\nPolymer('a');                 \ndefine('b');\nPolymer(\x7bis: 'c'\x7d);".toList
    mask text = .ok masked ∧ ∃ cells, Bytewise.scan none (bytes text.toList) = some cells ∧
      Text.Utf8.decodeLossy (cells.map Cell.shown) = masked ∧ Blanked (bytes text.toList) (cells.map Cell.shown) ∧
      ∃ elementsAt modulesAt : List Nat, elementsAt.Pairwise (· < ·) ∧ modulesAt.Pairwise (· < ·) ∧
        List.Forall₂ (Stands [.polymer] cells) elementsAt [2, 4] ∧
        List.Forall₂ (Stands [.modulate, .define] cells) modulesAt [3] := by
  intro text masked
  have hmask : mask text = .ok masked := by decide +kernel
  have hobject : calls elementObject masked = [⟨63, 4, "c"⟩] := by decide +kernel
  have hnamed : calls elementNamed masked = [⟨19, 2, "a"⟩] := by decide +kernel
  have hmodule : moduleCalls masked = [⟨50, 3, "b"⟩] := by decide +kernel
  have helement : elementCalls masked = [⟨19, 2, "a"⟩, ⟨63, 4, "c"⟩] := by
    rw [elementCalls, hobject, hnamed]
    exact merge_of_perm (.swap ..) (by decide)
  have hread : read text false = .ok {
      elements := [{ name := "a", line := 2 }, { name := "c", line := 4 }]
      modules := [{ name := "b", line := 3 }] } := by
    rw [read, hmask]
    simp only [helement, hmodule]
    rfl
  obtain ⟨cells, hscan, _, _, hlossy, hblanked, hdeclared⟩ := read_positions hmask
  obtain ⟨metadata, elementsAt, modulesAt, hmetadata, helementsAt, hmodulesAt, helements, hmodules⟩ := hdeclared false
  obtain rfl := Except.ok.inj (hmetadata.symm.trans hread)
  exact ⟨hmask, cells, hscan, hlossy, hblanked, elementsAt, modulesAt, helementsAt, hmodulesAt, helements, hmodules⟩

end ImportTree.Script
