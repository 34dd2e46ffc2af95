import ImportTree.Proofs.Files.Steps
import Mathlib.Algebra.Group.Nat.Defs

/-!
# Names in places

The names of a place stand between the slashes of a path: none of them holds a slash, is empty or leads elsewhere, in
bytes or as it is shown.
-/

namespace ImportTree

/-! ## ASCII in UTF-8 -/

namespace Text.Utf8

variable {b : UInt8} {bytes : List UInt8} {low high acc more n : Nat} {c : Char} {rest : List (Option Char)}

/-- Bytes that continue a character only raise its number. -/
theorem le_followUp (h : (followUp low high acc more bytes).1 = some n) : acc * 64 ^ more ≤ n := by
  induction more generalizing low high acc bytes with
  | zero =>
      cases h
      exact Nat.le_of_eq (by rw [Nat.pow_zero, Nat.mul_one])
  | succ more ih =>
      cases bytes with
      | nil => cases h
      | cons b bytes =>
          rw [followUp] at h
          split at h
          next =>
            calc acc * 64 ^ (more + 1) = acc * 64 * 64 ^ more := by rw [Nat.pow_succ, Nat.mul_comm _ 64, Nat.mul_assoc]
              _ ≤ (acc * 64 + (b.toNat - 0x80)) * 64 ^ more := Nat.mul_le_mul_right _ (Nat.le_add_right ..)
              _ ≤ n := ih h
          next => cases h

theorem le_followUp_succ (h : (followUp low high acc (more + 1) bytes).1 = some n) :
    (acc * 64 + (low - 0x80)) * 64 ^ more ≤ n := by
  cases bytes with
  | nil => cases h
  | cons b bytes =>
      rw [followUp] at h
      split at h
      next hb =>
        have hlow : acc * 64 + (low - 0x80) ≤ acc * 64 + (b.toNat - 0x80) := by omega
        exact Nat.le_trans (Nat.mul_le_mul_right _ hlow) (le_followUp h)
      next => cases h

theorem followUp_suffix (low high acc more : Nat) (bytes : List UInt8) :
    (followUp low high acc more bytes).2 <:+ bytes := by
  induction more generalizing low high acc bytes with
  | zero => exact List.suffix_refl _
  | succ more ih =>
      cases bytes with
      | nil => exact List.suffix_refl _
      | cons b bytes =>
          rw [followUp]
          split
          next => exact (ih ..).trans (List.suffix_cons ..)
          next => exact List.suffix_refl _

/-- A first byte stands for itself, or asks for bytes with which the character is beyond ASCII. -/
theorem lead?_cases (h : lead? b = some (more, low, high, acc)) :
    more = 0 ∧ acc = b.toNat ∨ ∃ m, more = m + 1 ∧ 0x80 ≤ (acc * 64 + (low - 0x80)) * 64 ^ m := by
  unfold lead? at h
  dsimp only at h
  repeat' split at h
  all_goals simp only [Option.some.injEq, Prod.mk.injEq, reduceCtorEq] at h
  all_goals obtain ⟨rfl, rfl, rfl, rfl⟩ := h
  · exact .inl ⟨rfl, rfl⟩
  all_goals exact .inr ⟨_, rfl, by omega⟩

theorem toNat_ofNat_cases (n : Nat) : (Char.ofNat n).toNat = n ∨ (Char.ofNat n).toNat = 0 := by
  by_cases h : n.isValidChar
  · exact .inl (congrArg Char.toNat (dif_pos h))
  · exact .inr (congrArg Char.toNat (dif_neg h))

/-- An ASCII character is read from the byte that it is written as. -/
theorem readAll_ascii (hc : 0 < c.toNat ∧ c.toNat < 0x80) (h : readAll bytes = some c :: rest) :
    ∃ more, bytes = UInt8.ofNat c.toNat :: more ∧ readAll more = rest := by
  cases bytes with
  | nil => simp [readAll] at h
  | cons b bytes =>
      rw [readAll] at h
      split at h
      next more low high acc hlead =>
        obtain ⟨hhead, htail⟩ := List.cons.inj h
        obtain ⟨n, hn, rfl⟩ := Option.map_eq_some_iff.mp hhead
        rcases lead?_cases hlead with ⟨rfl, rfl⟩ | ⟨m, rfl, hm⟩
        · cases hn
          have hb : (Char.ofNat b.toNat).toNat = b.toNat := by
            rcases toNat_ofNat_cases b.toNat with hb | hb
            · exact hb
            · omega
          exact ⟨bytes, by rw [hb, UInt8.ofNat_toNat], htail⟩
        · have hle := Nat.le_trans hm (le_followUp_succ hn)
          rcases toNat_ofNat_cases n with hn | hn <;> omega
      next => cases h

theorem mem_of_mem_readAll (hc : 0 < c.toNat ∧ c.toNat < 0x80) (h : some c ∈ readAll bytes) :
    UInt8.ofNat c.toNat ∈ bytes := by
  induction bytes using readAll.induct with
  | case1 => simp [readAll] at h
  | case2 b bytes more low high acc hlead ih =>
      rw [readAll, hlead] at h
      rcases List.mem_cons.mp h with hhead | htail
      · have hread : readAll (b :: bytes) = some c :: readAll (followUp low high acc more bytes).2 := by
          rw [readAll, hlead, hhead]
        obtain ⟨_, heq, _⟩ := readAll_ascii hc hread
        exact heq ▸ List.mem_cons_self ..
      · exact List.mem_cons_of_mem _ ((followUp_suffix ..).subset (ih htail))
  | case3 b bytes hlead ih =>
      rw [readAll, hlead] at h
      rcases List.mem_cons.mp h with hhead | htail
      · cases hhead
      · exact List.mem_cons_of_mem _ (ih htail)

theorem decode?_eq_some {cs : List Char} (h : decode? bytes = some cs) : readAll bytes = cs.map some := by
  unfold decode? at h
  generalize readAll bytes = l at h ⊢
  induction l generalizing cs with
  | nil =>
      obtain rfl : [] = cs := by simpa using h
      rfl
  | cons o l ih =>
      simp only [List.mapM_cons, Option.bind_eq_bind, id, Option.bind_eq_some_iff] at h
      obtain ⟨c, rfl, cs', hl, hcs⟩ := h
      cases hcs
      rw [List.map_cons, ih hl]

theorem mem_of_mem_decode {cs : List Char} (h : decode? bytes = some cs) (hc : 0 < c.toNat ∧ c.toNat < 0x80)
    (hmem : c ∈ cs) : UInt8.ofNat c.toNat ∈ bytes := by
  refine mem_of_mem_readAll hc ?_
  rw [decode?_eq_some h]
  exact List.mem_map_of_mem hmem

theorem mem_of_mem_decodeLossy (hc : 0 < c.toNat ∧ c.toNat < 0x80) (h : c ∈ decodeLossy bytes) :
    UInt8.ofNat c.toNat ∈ bytes := by
  obtain ⟨o, ho, rfl⟩ := List.mem_map.mp h
  cases o with
  | none => exact absurd hc.2 (by decide)
  | some c => exact mem_of_mem_readAll hc ho

/-- Bytes that are shown as ASCII are the ASCII bytes. -/
theorem eq_of_decodeLossy {cs : List Char} (hcs : ∀ c ∈ cs, 0 < c.toNat ∧ c.toNat < 0x80)
    (h : decodeLossy bytes = cs) : bytes = cs.map fun c => UInt8.ofNat c.toNat := by
  induction cs generalizing bytes with
  | nil =>
      cases bytes with
      | nil => rfl
      | cons b bytes =>
          rw [decodeLossy, List.map_eq_nil_iff, readAll] at h
          split at h <;> cases h
  | cons c cs ih =>
      obtain ⟨hc, hrest⟩ := List.forall_mem_cons.mp hcs
      obtain ⟨o, rest, hread, hhead, htail⟩ := List.map_eq_cons_iff.mp h
      cases o with
      | none =>
          subst hhead
          exact absurd hc.2 (by decide)
      | some d =>
          obtain rfl : d = c := hhead
          obtain ⟨more, rfl, rfl⟩ := readAll_ascii hc hread
          rw [List.map_cons, ← ih hrest htail]

end Text.Utf8

/-! ## Names that lead down -/

namespace Files

/-- A name that leads down, written between slashes. -/
def Name.IsComponent : Name → Prop
  | .text cs => '/' ∉ cs ∧ cs ≠ [] ∧ cs ≠ ['.'] ∧ cs ≠ ['.', '.']
  | .bytes raw => 0x2F ∉ raw ∧ raw ≠ [] ∧ raw ≠ [0x2E] ∧ raw ≠ [0x2E, 0x2E]

instance : DecidablePred Name.IsComponent
  | .text _ => inferInstanceAs (Decidable (_ ∧ _))
  | .bytes _ => inferInstanceAs (Decidable (_ ∧ _))

theorem Name.IsComponent.shown {name : Name} (h : name.IsComponent) :
    '/' ∉ name.shown ∧ name.shown ≠ [] ∧ name.shown ≠ ['.'] ∧ name.shown ≠ ['.', '.'] := by
  cases name with
  | text cs => exact h
  | bytes raw =>
      obtain ⟨hslash, hne, hdot, hup⟩ := h
      exact ⟨fun hmem => hslash (Text.Utf8.mem_of_mem_decodeLossy (by decide) hmem),
        fun he => hne (Text.Utf8.eq_of_decodeLossy (by simp) he),
        fun he => hdot (Text.Utf8.eq_of_decodeLossy (by simp) he),
        fun he => hup (Text.Utf8.eq_of_decodeLossy (by simp) he)⟩

theorem isComponent_text {cs : List Char} (hslash : '/' ∉ cs) (h : (Name.text cs).isStep = true) :
    .text cs = Name.above ∨ (Name.text cs).IsComponent := by
  rw [isStep_text] at h
  by_cases hup : cs = ['.', '.']
  · exact .inl (hup ▸ rfl)
  · exact .inr ⟨hslash, h.1, h.2, hup⟩

theorem isComponent_ofBytes {raw : List UInt8} (hslash : 0x2F ∉ raw) (h : (Name.ofBytes raw).isStep = true) :
    Name.ofBytes raw = .above ∨ (Name.ofBytes raw).IsComponent := by
  unfold Name.ofBytes at h ⊢
  cases hd : Text.Utf8.decode? raw with
  | some cs =>
      rw [hd] at h
      exact isComponent_text (fun hmem => hslash (Text.Utf8.mem_of_mem_decode hd (by decide) hmem)) h
  | none =>
      refine .inr ⟨hslash, ?_, ?_, ?_⟩ <;>
        rintro rfl <;>
        exact absurd hd (by decide +kernel)

/-! ## Places -/

/-- A place whose names all lead down, so that no other path to it is shorter. -/
def Place.IsNormal (place : Place) : Prop :=
  ∀ name ∈ place, name.IsComponent

variable {place next : Place} {names : List Name}

theorem Place.isNormal_nil : Place.IsNormal [] := by
  simp [IsNormal]

theorem Place.IsNormal.dropLast (h : place.IsNormal) : Place.IsNormal place.dropLast :=
  fun name hname => h name (List.dropLast_subset _ hname)

/-- Names that lead up or down lead from a normal place to a normal place. -/
theorem follow?_normal (hplace : place.IsNormal) (hnames : ∀ name ∈ names, name = .above ∨ name.IsComponent)
    (h : follow? place names = some next) : next.IsNormal := by
  induction names generalizing place with
  | nil => exact Option.some.inj h ▸ hplace
  | cons name names ih =>
      obtain ⟨hname, hnames⟩ := List.forall_mem_cons.mp hnames
      rw [follow?] at h
      split at h
      next =>
        split at h
        next => cases h
        next => exact ih hplace.dropLast hnames h
      next hdown =>
        have hadd : Place.IsNormal (place ++ [name]) := by
          intro n hn
          rcases List.mem_append.mp hn with hn | hn
          · exact hplace n hn
          · exact List.mem_singleton.mp hn ▸ hname.resolve_left hdown
        exact ih hadd hnames h

theorem steps_up_or_down (path : List Char) : ∀ name ∈ steps path, name = .above ∨ name.IsComponent := by
  intro name hname
  obtain ⟨hname, hstep⟩ := List.mem_filter.mp hname
  obtain ⟨part, hpart, rfl⟩ := List.mem_map.mp hname
  exact isComponent_text (Text.not_mem_of_mem_splitOn hpart rfl) hstep

/-- The components of a normal place as it is shown are its names, after the slash that it begins with. -/
theorem components_shown (h : place.IsNormal) (hne : place ≠ []) :
    components place.shown = [] :: place.map Name.shown := by
  rw [Place.shown, components_slash, components, Text.splitOn_joinWith (by simpa using hne)]
  intro part hpart
  obtain ⟨name, hname, rfl⟩ := List.mem_map.mp hpart
  exact (h name hname).shown.1

end Files

end ImportTree
