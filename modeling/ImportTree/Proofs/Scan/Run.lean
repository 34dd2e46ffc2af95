import ImportTree.Proofs.Script.Bytewise
import Mathlib.Data.PFun
import Mathlib.Data.String.Basic

/-!
# Runs over a text

A scanner that counts in bytes may reach beyond its text or cut a character in two, and its loops may turn without end.
A run says what becomes of that: it panics, it has no result, or it has one, together with the turns its loops took.
-/

namespace ImportTree.Scan

open Script (bytes)

/-! ## Runs -/

/-- What a text or its bytes do not allow. -/
inductive Panic where
  /-- A part of which a bound is out of range or inside a character, or of which the bounds are out of order. -/
  | slice
  /-- A byte that is not there. -/
  | index
deriving DecidableEq, Repr

/-- A turn of a loop over some bytes, from one offset to another. -/
structure Advance where
  bytes : List UInt8
  before : Nat
  after : Nat
deriving DecidableEq, Repr

/-- Without a result a run does not end. -/
abbrev Run := StateT (List Advance) (ExceptT Panic Part)

/-- What becomes of a loop in a turn. -/
inductive Turn (σ α : Type) where
  /-- The loop goes on from here. -/
  | next (s : σ)
  /-- The turn has come this far, and is the last one. -/
  | leave (s : σ) (a : α)
  /-- The loop ends without a turn. -/
  | stop (a : α)

variable {σ α β : Type}

def advance (bs : List UInt8) (before after : Nat) : Run Unit :=
  modify (· ++ [⟨bs, before, after⟩])

/-- Takes a turn over some bytes, behind which a loop ends with a value or goes on. -/
def once (bs : List UInt8) (offset : σ → Nat) (turn : σ → Run (Turn σ α)) (s : σ) : Run (α ⊕ σ) := do
  match ← turn s with
  | .next s' => do
    advance bs (offset s) (offset s')
    return .inr s'
  | .leave s' a => do
    advance bs (offset s) (offset s')
    return .inl a
  | .stop a => return .inl a

/-- What becomes of a loop behind a turn, with all turns up to there. -/
def outcome : Except Panic ((α ⊕ σ) × List Advance) → Except Panic (α × List Advance) ⊕ (σ × List Advance)
  | .error panic => .inl (.error panic)
  | .ok (.inl a, log) => .inl (.ok (a, log))
  | .ok (.inr s, log) => .inr (s, log)

/-- Takes one turn after another over some bytes, however many there are. -/
def loop (bs : List UInt8) (offset : σ → Nat) (turn : σ → Run (Turn σ α)) (s : σ) : Run α := fun log =>
  PFun.fix (fun p => (once bs offset turn p.1 p.2).run.map outcome) (s, log)

/-! ## Accesses -/

def byteAt (bs : List UInt8) (i : Nat) : Run UInt8 :=
  match bs[i]? with
  | some b => pure b
  | none => throw .index

def store (bs : List UInt8) (i : Nat) (b : UInt8) : Run (List UInt8) :=
  if i < bs.length then pure (bs.set i b) else throw .index

/-- The bytes from one offset up to another. -/
def between (bs : List UInt8) (first last : Nat) : Run (List UInt8) :=
  if first ≤ last ∧ last ≤ bs.length then pure ((bs.take last).drop first) else throw .slice

/-- The text from one byte offset up to another. -/
def slice (cs : List Char) (first last : Nat) : Run (List Char) :=
  if first ≤ last ∧ String.Pos.Raw.isValid (String.ofList cs) ⟨first⟩ ∧
      String.Pos.Raw.isValid (String.ofList cs) ⟨last⟩ then
    pure (String.Pos.Raw.extract (String.ofList cs) ⟨first⟩ ⟨last⟩).toList
  else throw .slice

/-- The offset behind all bytes from here on that meet a condition. -/
def skipWhile (bs : List UInt8) (p : UInt8 → Bool) (start : Nat) : Run Nat :=
  loop bs id (fun i => do
    if i < bs.length then do
      let b ← byteAt bs i
      if p b then return .next (i + 1) else return .stop i
    else return .stop i) start

/-! ## Runs that end -/

/-- Whether a run ends with a value, without a panic, and all turns of its loops are of a kind. -/
def Ends (P : Advance → Prop) (run : Run α) (a : α) : Prop :=
  ∀ log, ∃ turns, run log = Part.some (.ok (a, log ++ turns)) ∧ ∀ t ∈ turns, P t

/-- Whether a turn moves forward, and not beyond the end. -/
structure Advance.Inside (t : Advance) : Prop where
  forward : t.before < t.after
  bounded : t.after ≤ t.bytes.length

theorem Advance.Inside.begins {t : Advance} (h : t.Inside) : t.before < t.bytes.length :=
  Nat.lt_of_lt_of_le h.forward h.bounded

variable {P Q : Advance → Prop} {a : α} {b : β} {run : Run α} {k : α → Run β}

theorem ends_pure (a : α) : Ends P (pure a) a :=
  fun log => ⟨[], by rw [List.append_nil]; rfl, by simp⟩

theorem Ends.bind (h : Ends P run a) (hk : Ends P (k a) b) : Ends P (run >>= k) b := by
  intro log
  obtain ⟨turns, hrun, hturns⟩ := h log
  obtain ⟨turns', hrun', hturns'⟩ := hk (log ++ turns)
  refine ⟨turns ++ turns', ?_, List.forall_mem_append.mpr ⟨hturns, hturns'⟩⟩
  have hbind : (run >>= k) log = k a (log ++ turns) := by
    change (run log >>= fun p => k p.1 p.2) = _
    rw [hrun]
    exact Part.bind_some ..
  rw [hbind, hrun', List.append_assoc]

theorem Ends.mono (h : Ends P run a) (hPQ : ∀ t, P t → Q t) : Ends Q run a := by
  intro log
  obtain ⟨turns, hrun, hturns⟩ := h log
  exact ⟨turns, hrun, fun t ht => hPQ t (hturns t ht)⟩

/-! ## Loops that end -/

section Loops

variable {bs : List UInt8} {offset : σ → Nat} {turn : σ → Run (Turn σ α)} {s : σ}

theorem ends_advance {before after : Nat} (h : P ⟨bs, before, after⟩) : Ends P (advance bs before after) () :=
  fun _ => ⟨[⟨bs, before, after⟩], rfl, by simpa using h⟩

theorem ends_loop_stop (h : Ends P (once bs offset turn s) (.inl a)) : Ends P (loop bs offset turn s) a := by
  intro log
  obtain ⟨turns, hturn, hturns⟩ := h log
  refine ⟨turns, Part.eq_some_iff.mpr (PFun.fix_stop ?_), hturns⟩
  rw [ExceptT.run, hturn, Part.map_some]
  exact Part.mem_some _

theorem ends_loop_next {t : σ} (h : Ends P (once bs offset turn s) (.inr t))
    (hrest : Ends P (loop bs offset turn t) a) : Ends P (loop bs offset turn s) a := by
  intro log
  obtain ⟨turns, hturn, hturns⟩ := h log
  obtain ⟨turns', hloop, hturns'⟩ := hrest (log ++ turns)
  have hnext : loop bs offset turn s log = loop bs offset turn t (log ++ turns) := by
    refine PFun.fix_fwd_eq ?_
    rw [ExceptT.run, hturn, Part.map_some]
    exact Part.mem_some _
  refine ⟨turns ++ turns', ?_, List.forall_mem_append.mpr ⟨hturns, hturns'⟩⟩
  rw [hnext, hloop, List.append_assoc]

/-- What may come of a turn where a loop is expected to end with a value. -/
inductive Leads (P : Advance → Prop) (bs : List UInt8) (offset : σ → Nat) (turn : σ → Run (Turn σ α))
    (Expects : σ → α → Prop) (s : σ) (a : α) : Prop where
  | next {t : σ} : Ends P (turn s) (.next t) → P ⟨bs, offset s, offset t⟩ → Expects t a →
      Leads P bs offset turn Expects s a
  | leave {t : σ} : Ends P (turn s) (.leave t a) → P ⟨bs, offset s, offset t⟩ →
      Leads P bs offset turn Expects s a
  | stop : Ends P (turn s) (.stop a) → Leads P bs offset turn Expects s a

/-- Whether turns of a kind all move forward, and not far beyond the end. -/
def Forward (P : Advance → Prop) : Prop :=
  ∀ t, P t → t.before < t.after ∧ t.after ≤ t.bytes.length + 1

/-- A loop all of whose turns move forward comes to its end, and ends as every turn expects. -/
theorem ends_loop (Expects : σ → α → Prop) (hP : Forward P)
    (hturn : ∀ s a, Expects s a → Leads P bs offset turn Expects s a) (h : Expects s a) :
    Ends P (loop bs offset turn s) a := by
  -- A turn may come one offset beyond the last byte, so that there is one more offset than bytes to come to.
  induction hleft : bs.length + 1 - offset s using Nat.strong_induction_on generalizing s with
  | _ n ih =>
    subst hleft
    cases hturn s a h with
    | @next t hnext hadvance hexpects =>
        obtain ⟨hforward, hbounded⟩ := hP _ hadvance
        have hless : bs.length + 1 - offset t < bs.length + 1 - offset s :=
          Nat.sub_lt_sub_left (Nat.lt_of_lt_of_le hforward hbounded) hforward
        have hrest := ih _ hless hexpects rfl
        exact ends_loop_next (hnext.bind ((ends_advance hadvance).bind (ends_pure _))) hrest
    | leave hleave hadvance => exact ends_loop_stop (hleave.bind ((ends_advance hadvance).bind (ends_pure _)))
    | stop hstop => exact ends_loop_stop (hstop.bind (ends_pure _))

theorem forward_inside : Forward Advance.Inside :=
  fun _ h => ⟨h.forward, Nat.le_succ_of_le h.bounded⟩

end Loops

/-! ## Accesses that are allowed -/

variable {pre post : List UInt8} {byte : UInt8} {i first last : Nat}

theorem ends_byteAt {bs : List UInt8} (h : bs[i]? = some byte) : Ends P (byteAt bs i) byte := by
  rw [byteAt, h]
  exact ends_pure byte

theorem ends_store (hi : i = pre.length) (new : UInt8) :
    Ends P (store (pre ++ byte :: post) i new) (pre ++ new :: post) := by
  have hset : (pre ++ byte :: post).set i new = pre ++ new :: post := by simp [hi]
  rw [store, if_pos (by simp [hi]), hset]
  exact ends_pure _

theorem ends_between (pre mid post : List UInt8) (hfirst : first = pre.length) (hlast : last = (pre ++ mid).length) :
    Ends P (between (pre ++ (mid ++ post)) first last) mid := by
  have hpart : ((pre ++ (mid ++ post)).take last).drop first = mid := by
    rw [hlast, ← List.append_assoc, List.take_left, hfirst, List.drop_left]
  rw [between, if_pos (by simp [hfirst, hlast]), hpart]
  exact ends_pure mid

theorem ends_between_end (pre post : List UInt8) (hfirst : first = pre.length) :
    Ends P (between (pre ++ post) first (pre ++ post).length) post := by
  simpa using ends_between (P := P) pre post [] hfirst rfl

theorem length_bytes (cs : List Char) : (bytes cs).length = String.utf8Len cs := by
  induction cs with
  | nil => rfl
  | cons c cs ih =>
      rw [Script.bytes_cons, List.length_append, ih, String.length_utf8EncodeChar, String.utf8Len_cons, Nat.add_comm]

theorem isValid_bytes (cs rest : List Char) :
    String.Pos.Raw.isValid (String.ofList (cs ++ rest)) ⟨(bytes cs).length⟩ = true := by
  rw [String.Pos.Raw.isValid_eq_true_iff, String.Pos.Raw.isValid_iff_exists_append]
  refine ⟨String.ofList cs, String.ofList rest, String.ofList_append, ?_⟩
  rw [String.rawEndPos_ofList, length_bytes]

/-- A text is cut where characters begin and end. -/
theorem ends_slice (before part after : List Char) (hfirst : first = (bytes before).length)
    (hlast : last = (bytes (before ++ part)).length) : Ends P (slice (before ++ (part ++ after)) first last) part := by
  subst hfirst hlast
  have hvalid := isValid_bytes (before ++ part) after
  rw [List.append_assoc] at hvalid
  have hextract := String.extract_of_valid before part after
  rw [← length_bytes, ← length_bytes, ← List.length_append, ← Script.bytes_append, List.append_assoc] at hextract
  have hle : (bytes before).length ≤ (bytes (before ++ part)).length := by simp [Script.bytes_append]
  rw [slice, if_pos ⟨hle, isValid_bytes before (part ++ after), hvalid⟩, hextract, String.toList_ofList]
  exact ends_pure part

theorem ends_slice_end (before part : List Char) (hfirst : first = (bytes before).length) :
    Ends P (slice (before ++ part) first (bytes (before ++ part)).length) part := by
  simpa using ends_slice (P := P) before part [] hfirst rfl

/-- What is skipped are the bytes in front of the first other byte. -/
theorem ends_skipWhile (p : UInt8 → Bool) (pre post : List UInt8) :
    Ends Advance.Inside (skipWhile (pre ++ post) p pre.length) (pre.length + (post.takeWhile p).length) := by
  refine ends_loop (fun i last => ∃ pre' post', pre ++ post = pre' ++ post' ∧ i = pre'.length ∧
    last = i + (post'.takeWhile p).length) forward_inside (fun i last h => ?_) ⟨pre, post, rfl, rfl, rfl⟩
  obtain ⟨pre', post', hbytes, rfl, rfl⟩ := h
  rw [hbytes]
  cases post' with
  | nil =>
      refine .stop ?_
      rw [if_neg (by simp)]
      exact ends_pure _
  | cons b post' =>
      have hinside : pre'.length < (pre' ++ b :: post').length := by simp
      have hbyte : (pre' ++ b :: post')[pre'.length]? = some b := by simp
      cases hb : p b with
      | true =>
          refine .next (t := pre'.length + 1) ?_ ⟨Nat.lt_succ_self _, hinside⟩
            ⟨pre' ++ [b], post', by simp, by simp, ?_⟩
          · rw [if_pos hinside]
            refine (ends_byteAt hbyte).bind ?_
            rw [if_pos hb]
            exact ends_pure _
          · rw [List.takeWhile_cons_of_pos hb, List.length_cons]
            omega
      | false =>
          refine .stop ?_
          rw [if_pos hinside, List.takeWhile_cons_of_neg (by simp [hb])]
          refine (ends_byteAt hbyte).bind ?_
          rw [if_neg (by simp [hb])]
          exact ends_pure _

end ImportTree.Scan
