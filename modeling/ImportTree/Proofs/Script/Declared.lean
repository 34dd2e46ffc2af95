import ImportTree.Proofs.Script.Registrations
import Mathlib.Data.List.Nodup
import Mathlib.Data.List.Perm.Basic

/-!
# Declarations of a script

The calls that are found in a masked script are those that were written into it. The two forms of calls that declare
elements are searched for one after another, and their offsets bring them back into the order of the script.
-/

namespace ImportTree.Script

variable {offset line : Nat}

/-! ## The order of calls -/

theorem Registration.text_pos (r : Registration) : 0 < (r.text Layout.masked).length := by
  obtain ⟨c, tail, hword, _⟩ := r.form.keyword.word_initial
  simp [text, hword]

theorem le_offset_callsOf {rs : List Registration} : ∀ call ∈ callsOf offset line rs, offset ≤ call.2.offset := by
  induction rs generalizing offset line with
  | nil => simp [callsOf]
  | cons r rs ih =>
      intro call hcall
      rcases List.mem_cons.mp hcall with rfl | hcall
      · exact Nat.le_refl _
      · exact Nat.le_trans (Nat.le_add_right ..) (ih call hcall)

theorem callsOf_increasing (rs : List Registration) :
    (callsOf offset line rs).Pairwise fun a b => a.2.offset < b.2.offset := by
  induction rs generalizing offset line with
  | nil => exact .nil
  | cons r rs ih =>
      refine .cons (fun call hcall => ?_) ih
      exact Nat.lt_of_lt_of_le (Nat.lt_add_of_pos_right r.text_pos) (le_offset_callsOf call hcall)

theorem merge_perm (a b : List Call) : (merge a b).Perm (a ++ b) :=
  List.mergeSort_perm ..

theorem merge_ordered (a b : List Call) : (merge a b).Pairwise fun x y => x.offset ≤ y.offset := by
  refine (List.pairwise_mergeSort ?_ ?_ _).imp of_decide_eq_true
  · intro x y z hxy hyz
    exact decide_eq_true (Nat.le_trans (of_decide_eq_true hxy) (of_decide_eq_true hyz))
  · intro x y
    simpa using Nat.le_total x.offset y.offset

/-- Calls that increase are what the merge of their two parts gives. -/
theorem merge_of_perm {a b found : List Call} (hperm : (a ++ b).Perm found)
    (hlt : found.Pairwise fun x y => x.offset < y.offset) : merge a b = found := by
  have hmerged : (merge a b).Perm found := (merge_perm a b).trans hperm
  have hnodup : (found.map Call.offset).Nodup := List.pairwise_map.mpr (hlt.imp Nat.ne_of_lt)
  refine hmerged.eq_of_pairwise (fun x y hx hy hxy hyx => ?_) (merge_ordered a b) (hlt.imp Nat.le_of_lt)
  exact List.inj_on_of_nodup_map hnodup (hmerged.mem_iff.mp hx) hy (Nat.le_antisymm hxy hyx)

namespace Source

variable (s : Source)

/-- What a search of all forms finds in the masked script. -/
def found : List (Registration × Call) :=
  callsOf s.lead.masked.length (1 + s.lead.written.count '\n') s.calls

theorem calls_masked {form : CallForm} {kind : Registration → Bool} (h : Reads form kind) :
    Script.calls form s.masked = (s.found.filter fun call => kind call.1).map Prod.snd := by
  have hcalls : callsFrom form 0 none 0 1 s.masked = _ := h.callsFrom_calls s.lead_mute s.separated rfl
  rwa [Nat.zero_add, Layout.count_masked] at hcalls

theorem elementCalls_masked :
    elementCalls s.masked = (s.found.filter fun call => call.1.isElement).map Prod.snd := by
  rw [elementCalls, s.calls_masked elementObject_reads, s.calls_masked elementNamed_reads]
  refine merge_of_perm ?_ ?_
  · have hsplit := List.filter_append_perm (fun call => call.1.isObject) (s.found.filter fun call => call.1.isElement)
    rw [List.filter_filter, List.filter_filter] at hsplit
    rw [← List.map_append]
    exact hsplit.map Prod.snd
  · exact List.pairwise_map.mpr ((callsOf_increasing s.calls).filter _)

theorem callsOf_declared (kind : Registration → Bool) (script? : Option String) {rs : List Registration} :
    (((callsOf offset line rs).filter fun call => kind call.1).map Prod.snd).map
        (fun call => ({ name := call.name, line := call.line, script? } : Declaration)) =
      ((locate line rs).filter fun call => kind call.2).map (declared script?) := by
  induction rs generalizing offset line with
  | nil => rfl
  | cons r rs ih =>
      rw [callsOf, locate, r.count_text]
      cases hkind : kind r <;> simp [hkind, declared, ih]

end Source

/-- A script declares exactly what its calls declare, in their order and on their lines, if its comments are what
masking blanks. -/
theorem read_source (s : Source) (attach : Bool) (h : mask (String.ofList s.written) = .ok s.masked) :
    read (String.ofList s.written) attach =
      .ok (s.metadata (if attach then some (String.ofList s.written) else none)) := by
  let script? := if attach then some (String.ofList s.written) else none
  have hdeclared (kind : Registration → Bool) :
      ((s.found.filter fun call => kind call.1).map Prod.snd).map _ = (s.located.filter _).map _ :=
    Source.callsOf_declared kind script?
  have helements := congrArg (List.map fun d : Declaration => ({ d with } : Element)) (hdeclared (·.isElement))
  rw [List.map_map] at helements
  rw [read, h]
  simp only [moduleCalls]
  rw [s.elementCalls_masked, s.calls_masked moduleDefinition_reads]
  refine congrArg Except.ok (congrArg₂ Metadata.mk (helements.trans List.map_map) (hdeclared (!·.isElement)))

/-- A script with calls of three forms, and one more in a comment. -/
def Source.mixed : Source where
  lead := [.lineComment " Polymer('x-old');".toList, .code ['\n']]
  lead_mute k := by cases k <;> decide +kernel
  calls := [
    { form := .named .polymer
      beforeParen := []
      beforeParen_gap := by simp [Layout.IsGap]
      beforeName := []
      beforeName_gap := by simp [Layout.IsGap]
      quote := '"'
      quote_mark := .inr rfl
      name := "x-second".toList
      name_ne := by decide
      name_chars := by simp
      rest := [.code ", 1);\n".toList]
      rest_mute := by intro k; cases k <;> decide +kernel },
    { form := .named .define
      beforeParen := [.code [' ']]
      beforeParen_gap := by simp [Layout.IsGap, Text.isSpace]
      beforeName := []
      beforeName_gap := by simp [Layout.IsGap]
      quote := '\''
      quote_mark := .inl rfl
      name := "Polymer".toList
      name_ne := by decide
      name_chars := by simp
      rest := [.code ");\n".toList]
      rest_mute := by intro k; cases k <;> decide +kernel },
    { form := .object
        { beforeBrace := []
          beforeBrace_gap := by simp [Layout.IsGap]
          fields := [.code "label: 1,".toList]
          fields_end := by rintro c ⟨⟩; rfl
          fields_flat := by decide
          fields_other := by
            rintro ⟨before, after, heq, _⟩
            have hletter : 'i' ∈ before ++ 'i' :: 's' :: after := by simp
            rw [← heq] at hletter
            revert hletter
            decide +kernel
          fields_mute := by intro k; cases k <;> decide +kernel
          beforeIs := [.code [' ']]
          beforeIs_gap := by simp [Layout.IsGap, Text.isSpace]
          beforeColon := []
          beforeColon_gap := by simp [Layout.IsGap] }
      beforeParen := [.blockComment " an element ".toList]
      beforeParen_gap := by simp [Layout.IsGap]
      beforeName := [.code [' ']]
      beforeName_gap := by simp [Layout.IsGap, Text.isSpace]
      quote := '\''
      quote_mark := .inl rfl
      name := "x-new".toList
      name_ne := by decide
      name_chars := by simp
      rest := [.code ['\x7d', ')', ';']]
      rest_mute := by intro k; cases k <;> decide +kernel }]
  separated := by simp [Separated, Layout.masked, Stretch.masked] ; decide

theorem read_source_mixed : mask (String.ofList Source.mixed.written) = .ok Source.mixed.masked ∧
    read (String.ofList Source.mixed.written) false = .ok {
      elements := [{ name := "x-second", line := 2 }, { name := "x-new", line := 4 }]
      modules := [{ name := "Polymer", line := 3 }] } :=
  have hmask : mask (String.ofList Source.mixed.written) = .ok Source.mixed.masked := by decide +kernel
  ⟨hmask, (read_source Source.mixed false hmask).trans (by decide +kernel)⟩

end ImportTree.Script
