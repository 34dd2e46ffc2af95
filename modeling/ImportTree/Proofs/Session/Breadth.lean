import ImportTree.Session.Walk
import Mathlib.Data.List.Nodup
import Mathlib.Order.Lattice.Nat
import Mathlib.Logic.Relation

/-!
# Breadth first

A breadth-first walk lists every address that is reached from the start, once, and the nearer ones first. The queue
of the walk is a frontier: it is sorted by distance, and what has left it leads to nothing unseen.
-/

namespace ImportTree.Session

/-! ## Distances -/

/-- Whether a number of links lead from the start to an address. -/
inductive Steps (link : String → String → Prop) (start : String) : Nat → String → Prop where
  | zero : Steps link start 0 start
  | succ {n : Nat} {a b : String} : Steps link start n a → link a b → Steps link start (n + 1) b

/-- The least number of links that lead from the start to an address. -/
noncomputable def distance (link : String → String → Prop) (start a : String) : Nat :=
  sInf {n | Steps link start n a}

variable {link : String → String → Prop} {start a b : String} {n : Nat} {queue seen targets found : List String}

theorem steps_iff : (∃ n, Steps link start n a) ↔ Relation.ReflTransGen link start a := by
  constructor
  · rintro ⟨n, h⟩
    induction h with
    | zero => exact .refl
    | succ _ hl ih => exact ih.tail hl
  · intro h
    induction h with
    | refl => exact ⟨0, .zero⟩
    | tail _ hl ih =>
        obtain ⟨n, h⟩ := ih
        exact ⟨n + 1, h.succ hl⟩

theorem distance_le (h : Steps link start n a) : distance link start a ≤ n :=
  Nat.sInf_le h

theorem steps_distance (h : Steps link start n a) : Steps link start (distance link start a) a :=
  Nat.sInf_mem (s := {n | Steps link start n a}) ⟨n, h⟩

theorem distance_succ (h : Steps link start n a) (hl : link a b) :
    distance link start b ≤ distance link start a + 1 :=
  distance_le ((steps_distance h).succ hl)

/-! ## Unseen targets -/

@[simp] theorem mem_unseen : b ∈ unseen seen targets ↔ b ∈ targets ∧ b ∉ seen := by
  induction targets generalizing seen with
  | nil => simp [unseen]
  | cons a targets ih =>
      unfold unseen
      by_cases ha : a ∈ seen
      · rw [if_pos ha, ih, List.mem_cons]
        constructor
        · rintro ⟨hb, hn⟩
          exact ⟨.inr hb, hn⟩
        · rintro ⟨rfl | hb, hn⟩
          · exact absurd ha hn
          · exact ⟨hb, hn⟩
      · rw [if_neg ha, List.mem_cons, ih, List.mem_cons, List.mem_cons]
        by_cases hb : b = a
        · simp [hb, ha]
        · simp [hb]

theorem nodup_unseen (seen targets : List String) : (unseen seen targets).Nodup := by
  induction targets generalizing seen with
  | nil => exact List.nodup_nil
  | cons a targets ih =>
      unfold unseen
      split
      next => exact ih seen
      next =>
        refine List.nodup_cons.mpr ⟨fun h => ?_, ih (a :: seen)⟩
        exact (mem_unseen.mp h).2 (List.mem_cons_self ..)

theorem nodup_append_unseen (h : seen.Nodup) (targets : List String) : (seen ++ unseen seen targets).Nodup :=
  List.nodup_append.mpr ⟨h, nodup_unseen seen targets, fun _ ha _ hb hab => (mem_unseen.mp (hab ▸ hb)).2 ha⟩

theorem targets_subset (seen targets : List String) : targets ⊆ seen ++ unseen seen targets := by
  intro b hb
  by_cases hs : b ∈ seen
  · exact List.mem_append_left _ hs
  · exact List.mem_append_right _ (mem_unseen.mpr ⟨hb, hs⟩)

/-! ## Frontiers -/

/-- A queue that is about to be walked from, and everything that was ever in it. -/
structure Frontier (link : String → String → Prop) (start : String) (queue seen : List String) : Prop where
  origin : start ∈ seen
  reached : ∀ a ∈ seen, ∃ n, Steps link start n a
  pending : queue ⊆ seen
  closed : ∀ a ∈ seen, a ∉ queue → ∀ b, link a b → b ∈ seen
  sorted : queue.Pairwise fun a b => distance link start a ≤ distance link start b
  spread : ∀ a ∈ queue, ∀ b ∈ queue, distance link start b ≤ distance link start a + 1

theorem Frontier.initial (link : String → String → Prop) (start : String) : Frontier link start [start] [start] where
  origin := List.mem_singleton_self start
  reached a ha := ⟨0, List.mem_singleton.mp ha ▸ .zero⟩
  pending := List.Subset.refl _
  closed _ ha hn := absurd ha hn
  sorted := List.pairwise_singleton ..
  spread a ha b hb := by
    rw [List.mem_singleton.mp ha, List.mem_singleton.mp hb]
    exact Nat.le_succ _

/-- Whatever has not been seen is farther than an address of the queue. -/
theorem Frontier.crossing (h : Frontier link start queue seen) (hs : Steps link start n b) (hb : b ∉ seen) :
    ∃ a ∈ queue, distance link start a + 1 ≤ n := by
  induction hs with
  | zero => exact absurd h.origin hb
  | @succ n a b hs hl ih =>
      by_cases ha : a ∈ seen
      · by_cases hq : a ∈ queue
        · exact ⟨a, hq, Nat.succ_le_succ (distance_le hs)⟩
        · exact absurd (h.closed a ha hq b hl) hb
      · obtain ⟨c, hc, hle⟩ := ih ha
        exact ⟨c, hc, Nat.le_succ_of_le hle⟩

theorem Frontier.head_le (h : Frontier link start (a :: queue) seen) (hb : b ∈ a :: queue) :
    distance link start a ≤ distance link start b := by
  rcases List.mem_cons.mp hb with rfl | hb
  · exact Nat.le_refl _
  · exact (List.pairwise_cons.mp h.sorted).1 b hb

/-- Whatever has not been seen is farther than the head of the queue. -/
theorem Frontier.head_lt (h : Frontier link start (a :: queue) seen) (hs : Steps link start n b) (hb : b ∉ seen) :
    distance link start a + 1 ≤ distance link start b := by
  obtain ⟨c, hc, hle⟩ := h.crossing (steps_distance hs) hb
  have := h.head_le hc
  omega

/-- What the head of the queue leads to is by one farther, unless it was seen before. -/
theorem Frontier.distance_new (h : Frontier link start (a :: queue) seen) (hl : link a b) (hb : b ∉ seen) :
    distance link start b = distance link start a + 1 := by
  obtain ⟨n, hs⟩ := h.reached a (h.pending (List.mem_cons_self ..))
  have hle := distance_succ hs hl
  have hge := h.head_lt (hs.succ hl) hb
  omega

theorem Frontier.step (h : Frontier link start (a :: queue) seen) (hl : ∀ b, link a b ↔ b ∈ targets) :
    Frontier link start (queue ++ unseen seen targets) (seen ++ unseen seen targets) := by
  have hnew {b} (hb : b ∈ unseen seen targets) : link a b ∧ distance link start b = distance link start a + 1 := by
    obtain ⟨ht, hn⟩ := mem_unseen.mp hb
    exact ⟨(hl b).mpr ht, h.distance_new ((hl b).mpr ht) hn⟩
  have hfirst {b} (hb : b ∈ queue) : distance link start a ≤ distance link start b ∧
      distance link start b ≤ distance link start a + 1 :=
    ⟨h.head_le (List.mem_cons_of_mem _ hb), h.spread a (List.mem_cons_self ..) b (List.mem_cons_of_mem _ hb)⟩
  obtain ⟨n, hs⟩ := h.reached a (h.pending (List.mem_cons_self ..))
  refine ⟨List.mem_append_left _ h.origin, fun b hb => ?_, fun b hb => ?_, fun b hb hq c hc => ?_, ?_, ?_⟩
  · rcases List.mem_append.mp hb with hb | hb
    · exact h.reached b hb
    · exact ⟨n + 1, hs.succ (hnew hb).1⟩
  · rcases List.mem_append.mp hb with hb | hb
    · exact List.mem_append_left _ (h.pending (List.mem_cons_of_mem _ hb))
    · exact List.mem_append_right _ hb
  · have hq' : b ∉ queue ∧ b ∉ unseen seen targets := by simpa using hq
    have hbs : b ∈ seen := (List.mem_append.mp hb).resolve_right hq'.2
    by_cases hba : b = a
    · subst hba
      exact targets_subset seen targets ((hl c).mp hc)
    · exact List.mem_append_left _ (h.closed b hbs (by simp [hba, hq'.1]) c hc)
  · refine List.pairwise_append.mpr ⟨(List.pairwise_cons.mp h.sorted).2, ?_, fun b hb c hc => ?_⟩
    · exact List.pairwise_of_forall_mem_list fun b hb c hc => by rw [(hnew hb).2, (hnew hc).2]
    · rw [(hnew hc).2]
      exact (hfirst hb).2
  · intro b hb c hc
    rcases List.mem_append.mp hb with hb | hb <;> rcases List.mem_append.mp hc with hc | hc
    · exact h.spread b (List.mem_cons_of_mem _ hb) c (List.mem_cons_of_mem _ hc)
    · have := (hfirst hb).1
      rw [(hnew hc).2]
      omega
    · have := (hfirst hc).2
      rw [(hnew hb).2]
      omega
    · rw [(hnew hb).2, (hnew hc).2]
      omega

/-! ## Walks -/

/-- What a breadth-first walk finds, where it knows what each address leads to. -/
inductive Breadth (known : String → Option (List String)) : List String → List String → List String → Prop where
  | nil {seen : List String} : Breadth known [] seen []
  | cons {a : String} {targets queue seen found : List String} : known a = some targets →
      Breadth known (queue ++ unseen seen targets) (seen ++ unseen seen targets) found →
      Breadth known (a :: queue) seen (unseen seen targets ++ found)

namespace Breadth

variable {known known' : String → Option (List String)}

theorem mono (h : Breadth known queue seen found) (hk : ∀ {a l}, known a = some l → known' a = some l) :
    Breadth known' queue seen found := by
  induction h with
  | nil => exact .nil
  | cons ha _ ih => exact .cons (hk ha) ih

/-- What is known determines the list. -/
theorem unique {found' : List String} (h : Breadth known queue seen found) (h' : Breadth known queue seen found') :
    found = found' := by
  induction h generalizing found' with
  | nil => cases h'; rfl
  | cons ha _ ih =>
      cases h' with
      | cons ha' h' =>
          cases ha.symm.trans ha'
          rw [ih h']

theorem nodup (h : Breadth known queue seen found) (hs : seen.Nodup) : (seen ++ found).Nodup := by
  induction h with
  | nil => simpa using hs
  | cons _ _ ih =>
      rw [← List.append_assoc]
      exact ih (nodup_append_unseen hs _)

/-- Whatever the walk meets is known, and leads to nothing that the walk does not meet. -/
theorem closed (h : Breadth known queue seen found) (hb : b ∈ queue ++ found) :
    ∃ targets, known b = some targets ∧ targets ⊆ seen ++ found := by
  induction h with
  | nil => cases hb
  | @cons a targets queue seen found ha hrest ih =>
      rw [← List.append_assoc]
      rw [List.cons_append] at hb
      rcases List.mem_cons.mp hb with rfl | hb
      · exact ⟨targets, ha, fun c hc => List.mem_append_left _ (targets_subset seen targets hc)⟩
      · rw [← List.append_assoc] at hb
        exact ih hb

theorem reached (h : Breadth known queue seen found) (hf : Frontier link start queue seen)
    (hl : ∀ {a targets}, known a = some targets → ∀ b, link a b ↔ b ∈ targets) :
    ∀ b ∈ found, ∃ n, Steps link start n b := by
  induction h with
  | nil => exact fun b hb => by cases hb
  | cons ha _ ih =>
      have hf' := hf.step (hl ha)
      intro b hb
      rcases List.mem_append.mp hb with hb | hb
      · exact hf'.reached b (List.mem_append_right _ hb)
      · exact ih hf' b hb

/-- The nearer addresses come first. -/
theorem sorted (h : Breadth known queue seen found) (hf : Frontier link start queue seen) (hs : seen.Nodup)
    (hl : ∀ {a targets}, known a = some targets → ∀ b, link a b ↔ b ∈ targets) :
    found.Pairwise fun a b => distance link start a ≤ distance link start b := by
  induction h with
  | nil => exact .nil
  | @cons a targets queue seen found ha hrest ih =>
      have hf' := hf.step (hl ha)
      have hn := nodup_append_unseen hs targets
      have hnew {b} (hb : b ∈ unseen seen targets) : distance link start b = distance link start a + 1 := by
        obtain ⟨ht, hb⟩ := mem_unseen.mp hb
        exact hf.distance_new ((hl ha b).mpr ht) hb
      refine List.pairwise_append.mpr ⟨?_, ih hf' hn, fun b hb c hc => ?_⟩
      · exact List.pairwise_of_forall_mem_list fun b hb c hc => by rw [hnew hb, hnew hc]
      · obtain ⟨n, hsteps⟩ := hrest.reached hf' hl c hc
        have hunseen : c ∉ seen := fun hmem =>
          (List.nodup_append.mp (hrest.nodup hn)).2.2 c (List.mem_append_left _ hmem) c hc rfl
        rw [hnew hb]
        exact hf.head_lt hsteps hunseen

/-- A walk from one address lists all others that are reached from it. -/
theorem mem_iff (h : Breadth known [start] [start] found)
    (hl : ∀ {a targets}, known a = some targets → ∀ b, link a b ↔ b ∈ targets) :
    b ∈ start :: found ↔ Relation.ReflTransGen link start b := by
  constructor
  · intro hb
    rcases List.mem_cons.mp hb with rfl | hb
    · exact .refl
    · exact steps_iff.mp (h.reached (.initial link start) hl b hb)
  · intro hr
    induction hr with
    | refl => exact List.mem_cons_self ..
    | tail _ hbc ih =>
        obtain ⟨targets, hk, hsub⟩ := h.closed ih
        exact hsub ((hl hk _).mp hbc)

end Breadth

end ImportTree.Session
