import I860.Proofs.Lookups
import Mathlib.Data.List.DropRight

/-!
# The buffers by their histories

What the lookaside buffer and the instruction cache answer is a matter of what
was put into them and in which order, and of nothing else. A page is answered
with the mapping last inserted for it, and only until another page of its set
goes into the very slot (`Tlb.latest_mapping_is_found`). An address is answered
with the pair last put into its line, and only if that was a pair for the same
address (`InstructionCache.latest_fill_is_found`).

Both rest on one observation about any place that operations write, clear or
leave alone (`seen_foldl_iff`): it shows what the last operation that did not
leave it alone has written. For the instruction cache the place is a line. For
the lookaside buffer it is a slot, as seen by one page, and that takes the one
invariant that is needed here: no page is in both slots of its set
(`Tlb.NoPageTwice`), so that an old copy in the slot that is asked first cannot
hide what the other one has.
-/

namespace I860

/-! ## The last write -/

section LastWrite

variable {σ ω α : Type} {p : ω → Prop}

/-- Any of some operations has a last one of its kind. -/
theorem exists_last {ops : List ω} (h : ∃ op ∈ ops, p op) :
    ∃ earlier op later, ops = earlier ++ op :: later ∧ p op ∧ ∀ o ∈ later, ¬p o := by
  induction ops with
  | nil => simp at h
  | cons first rest ih =>
      by_cases hrest : ∃ op ∈ rest, p op
      · obtain ⟨earlier, op, later, rfl, hop, hlater⟩ := ih hrest
        exact ⟨first :: earlier, op, later, rfl, hop, hlater⟩
      · obtain ⟨op, hmem, hop⟩ := h
        obtain rfl | hmem := List.mem_cons.1 hmem
        · exact ⟨[], op, rest, rfl, hop, fun o ho hpo => hrest ⟨o, ho, hpo⟩⟩
        · exact absurd ⟨op, hmem, hop⟩ hrest

/-- The last one of a kind is the only last one. -/
theorem last_unique {earlier earlier' later later' : List ω} {op op' : ω}
    (h : earlier ++ op :: later = earlier' ++ op' :: later') (hop : p op) (hop' : p op')
    (hlater : ∀ o ∈ later, ¬p o) (hlater' : ∀ o ∈ later', ¬p o) :
    op = op' ∧ later = later' := by
  obtain ⟨between, -, h⟩ | ⟨between, -, h⟩ := List.append_eq_append_iff.1 h
  · cases between with
    | nil => exact List.cons_eq_cons.1 h
    | cons first rest =>
        obtain ⟨-, rfl⟩ := List.cons_eq_cons.1 h
        exact absurd hop' (hlater op' (by simp))
  · cases between with
    | nil => exact (List.cons_eq_cons.1 h).imp Eq.symm Eq.symm
    | cons first rest =>
        obtain ⟨-, rfl⟩ := List.cons_eq_cons.1 h
        exact absurd hop (hlater' op (by simp))

/-- An operation and what was done after it, when one more is done. -/
theorem concat_eq_append_cons_iff {ops earlier later : List ω} {last op : ω} :
    ops ++ [last] = earlier ++ op :: later ↔
      (ops = earlier ∧ last = op ∧ later = []) ∨
        ∃ later', later = later' ++ [last] ∧ ops = earlier ++ op :: later' := by
  constructor
  · intro h
    obtain rfl | ⟨later', o, rfl⟩ := List.eq_nil_or_concat later
    · obtain ⟨hops, hlast⟩ := List.append_inj' h rfl
      exact .inl ⟨hops, (List.cons_eq_cons.1 hlast).1, rfl⟩
    · rw [List.concat_eq_append, ← List.cons_append, ← List.append_assoc] at h
      obtain ⟨hops, hlast⟩ := List.append_inj' h rfl
      rw [(List.cons_eq_cons.1 hlast).1]
      exact .inr ⟨later', List.concat_eq_append, hops⟩
  · rintro (⟨rfl, rfl, rfl⟩ | ⟨later', rfl, rfl⟩)
    · rfl
    · rw [List.append_assoc, List.cons_append]

/-- A place that each operation leaves alone (`none`), clears (`some none`) or
writes shows what the last operation has written that did not leave it alone. -/
theorem seen_foldl_iff {step : σ → ω → σ} {start : σ} (seen : σ → Option α)
    (writes : ω → Option (Option α)) (hstart : seen start = none)
    (hstep : ∀ (ops : List ω) op, seen (step (ops.foldl step start) op) =
      (writes op).getD (seen (ops.foldl step start)))
    (ops : List ω) (x : α) :
    seen (ops.foldl step start) = some x ↔
      ∃ earlier op later, ops = earlier ++ op :: later ∧ writes op = some (some x) ∧
        ∀ o ∈ later, writes o = none := by
  induction ops using List.reverseRecOn with
  | nil => simp [hstart]
  | append_singleton ops last ih =>
      simp only [concat_eq_append_cons_iff]
      rw [List.foldl_append, List.foldl_cons, List.foldl_nil, hstep]
      cases hlast : writes last with
      | none =>
          rw [Option.getD_none, ih]
          constructor
          · rintro ⟨earlier, op, later, rfl, hop, hlater⟩
            refine ⟨earlier, op, later ++ [last], .inr ⟨later, rfl, rfl⟩, hop, fun o ho => ?_⟩
            obtain ho | ho := List.mem_append.1 ho
            · exact hlater o ho
            · rw [List.mem_singleton.1 ho, hlast]
          · rintro ⟨earlier, op, _, ⟨rfl, rfl, rfl⟩ | ⟨later, rfl, rfl⟩, hop, hlater⟩
            · rw [hlast] at hop
              cases hop
            · exact ⟨earlier, op, later, rfl, hop, fun o ho => hlater o (by simp [ho])⟩
      | some written =>
          rw [Option.getD_some]
          constructor
          · rintro rfl
            exact ⟨ops, last, [], .inl ⟨rfl, rfl, rfl⟩, hlast, by simp⟩
          · rintro ⟨earlier, op, _, ⟨rfl, rfl, rfl⟩ | ⟨later, rfl, rfl⟩, hop, hlater⟩
            · rw [hlast] at hop
              exact Option.some.inj hop
            · rw [hlater last (by simp)] at hlast
              cases hlast

/-- An operation with what was done after it, within the operations at the end
that are all of one kind. -/
theorem rtakeWhile_eq_append_cons_iff [DecidablePred p] {ops later : List ω} {op : ω} :
    (∃ earlier, ops.rtakeWhile (fun o => decide (p o)) = earlier ++ op :: later) ↔
      (∃ earlier, ops = earlier ++ op :: later) ∧ p op ∧ ∀ o ∈ later, p o := by
  constructor
  · rintro ⟨earlier, h⟩
    have hall : ∀ o ∈ earlier ++ op :: later, p o := by
      intro o ho
      rw [← h] at ho
      have hkind := List.mem_rtakeWhile_imp ho
      exact of_decide_eq_true hkind
    refine ⟨⟨ops.rdropWhile (fun o => decide (p o)) ++ earlier, ?_⟩, hall op (by simp),
      fun o ho => hall o (by simp [ho])⟩
    rw [List.append_assoc, ← h, List.rdropWhile_append_rtakeWhile]
  · rintro ⟨⟨earlier, rfl⟩, hop, hlater⟩
    refine ⟨earlier.rtakeWhile fun o => decide (p o), ?_⟩
    have hall : ∀ o ∈ (op :: later).reverse, decide (p o) = true := by
      intro o ho
      obtain rfl | ho := List.mem_cons.1 (List.mem_reverse.1 ho)
      · exact decide_eq_true hop
      · exact decide_eq_true (hlater o ho)
    rw [List.rtakeWhile, List.reverse_append, List.takeWhile_append_of_pos hall,
      List.reverse_append, List.reverse_reverse]
    rfl

end LastWrite

/-! ## The lookaside buffer -/

/-- What is done to a lookaside buffer. -/
inductive TlbOp
  | insert (page : Word) (forWrite : Bool) (t : PageMapping)
  | flush
  deriving DecidableEq

namespace Tlb

/-- The buffer after an operation. -/
def apply (b : Tlb) : TlbOp → Tlb
  | .insert page forWrite t => b.insert page forWrite t
  | .flush => b.flush

/-- A new buffer after some operations, the first of them first. -/
def after (sets : Nat) (ops : List TlbOp) : Tlb := ops.foldl apply (new sets)

/-- The operations since the last flush. -/
def sinceFlush (ops : List TlbOp) : List TlbOp := ops.rtakeWhile fun op => op ≠ .flush

/-- The last mapping inserted for a page since the last flush, the kind of slot
that it went into, and what has been done after it. -/
structure LatestInsert (ops : List TlbOp) (page : Word) (forWrite : Bool) (t : PageMapping)
    (later : List TlbOp) : Prop where
  split : ∃ earlier, sinceFlush ops = earlier ++ .insert page forWrite t :: later
  latest : ∀ forWrite' t', .insert page forWrite' t' ∉ later

/-- Among some operations is an insertion of another page of the same set into
the slots of one kind. -/
def Displaced (sets : Nat) (page : Word) (forWrite : Bool) (ops : List TlbOp) : Prop :=
  ∃ page' t, .insert page' forWrite t ∈ ops ∧ page' ≠ page ∧
    (new sets).setOf page' = (new sets).setOf page

/-- No page is in both slots of a set. -/
def NoPageTwice (b : Tlb) : Prop :=
  ∀ set e e', b.readSlots.get? set = some e → b.writeSlots.get? set = some e' → e.page ≠ e'.page

/-- The slots of one kind. -/
def slots (b : Tlb) : Bool → Sparse 32 TlbEntry
  | true => b.writeSlots
  | false => b.readSlots

theorem after_concat (sets : Nat) (ops : List TlbOp) (op : TlbOp) :
    after sets (ops ++ [op]) = (after sets ops).apply op := by
  rw [after, List.foldl_append]
  rfl

theorem setOf_after (sets : Nat) (ops : List TlbOp) (page : Word) :
    (after sets ops).setOf page = (new sets).setOf page := by
  induction ops using List.reverseRecOn with
  | nil => rfl
  | append_singleton ops op ih =>
      rw [after_concat]
      cases op with
      | insert page' forWrite t => exact (setOf_insert ..).trans ih
      | flush => exact ih

/-! ### One page in both slots -/

theorem get?_dropPage {slots : Sparse 32 TlbEntry} {set set' : BitVec 32} {page : Word}
    {e : TlbEntry} (h : (dropPage slots set page).get? set' = some e) :
    slots.get? set' = some e ∧ (set' = set → e.page ≠ page) := by
  unfold dropPage at h
  split at h
  · rw [Sparse.get?_erase] at h
    split at h
    · cases h
    · next hset => exact ⟨h, fun heq => absurd heq.symm hset⟩
  · next hnot =>
      refine ⟨h, fun hset hpage => hnot ?_⟩
      rw [inSlot, ← hset, h]
      simp [hpage]

theorem NoPageTwice.insert {b : Tlb} (h : b.NoPageTwice) (page : Word) (forWrite : Bool)
    (t : PageMapping) : (b.insert page forWrite t).NoPageTwice := by
  intro set e e' hread hwrite
  cases forWrite with
  | true =>
      have hkept : (dropPage b.readSlots (b.setOf page) page).get? set = some e := hread
      obtain ⟨hread, hdropped⟩ := get?_dropPage hkept
      have hwrite : (b.writeSlots.insert (b.setOf page) ⟨page, t⟩).get? set = some e' := hwrite
      rw [Sparse.get?_insert] at hwrite
      split at hwrite
      · next hset =>
          cases hwrite
          exact hdropped hset.symm
      · exact h set e e' hread hwrite
  | false =>
      have hkept : (dropPage b.writeSlots (b.setOf page) page).get? set = some e' := hwrite
      obtain ⟨hwrite, hdropped⟩ := get?_dropPage hkept
      have hread : (b.readSlots.insert (b.setOf page) ⟨page, t⟩).get? set = some e := hread
      rw [Sparse.get?_insert] at hread
      split at hread
      · next hset =>
          cases hread
          exact (hdropped hset.symm).symm
      · exact h set e e' hread hwrite

theorem noPageTwice_after (sets : Nat) (ops : List TlbOp) : (after sets ops).NoPageTwice := by
  induction ops using List.reverseRecOn with
  | nil =>
      intro set e e' hread
      simp [after, new] at hread
  | append_singleton ops op ih =>
      rw [after_concat]
      cases op with
      | insert page forWrite t => exact ih.insert page forWrite t
      | flush =>
          intro set e e' hread
          simp [apply, flush] at hread

/-- Either slot answers for a page, since at most one of them has it. -/
theorem lookup_eq_some_iff {b : Tlb} (h : b.NoPageTwice) (page : Word) (t : PageMapping) :
    b.lookup page = some t ↔
      ∃ forWrite, inSlot (b.slots forWrite) (b.setOf page) page = some t := by
  constructor
  · intro hfound
    obtain hread | hwrite := keeps_of_lookup hfound
    · exact ⟨false, hread⟩
    · exact ⟨true, hwrite⟩
  · rintro ⟨_ | _, hfound⟩
    · have hread : inSlot b.readSlots (b.setOf page) page = some t := hfound
      rw [lookup, hread]
      rfl
    · have hwrite : inSlot b.writeSlots (b.setOf page) page = some t := hfound
      have hread : inSlot b.readSlots (b.setOf page) page = none := by
        rw [Option.eq_none_iff_forall_ne_some]
        intro t' hread
        unfold inSlot at hread hwrite
        split at hread
        · next e he =>
            split at hwrite
            · next e' he' =>
                have hpages := h _ e e' he he'
                simp_all
            · cases hwrite
        · cases hread
      rw [lookup, hread, hwrite]
      rfl

/-! ### One slot -/

/-- What an operation does to a slot as a page sees it. -/
def slotWrite (sets : Nat) (page : Word) (forWrite : Bool) : TlbOp → Option (Option PageMapping)
  | .insert page' forWrite' t =>
      if page' = page then some (if forWrite' = forWrite then some t else none)
      else if forWrite' = forWrite ∧ (new sets).setOf page' = (new sets).setOf page then some none
      else none
  | .flush => some none

theorem inSlot_dropPage_of_ne (slots : Sparse 32 TlbEntry) (set set' : BitVec 32)
    {page page' : Word} (h : page' ≠ page) :
    inSlot (dropPage slots set page') set' page = inSlot slots set' page := by
  unfold dropPage
  split
  · next hsome =>
      rw [inSlot_erase]
      split
      · next hset =>
          subst hset
          unfold inSlot at hsome ⊢
          split
          · next e he =>
              rw [he] at hsome
              dsimp only at hsome
              split at hsome
              · next hpage => rw [if_neg fun heq => h (hpage.symm.trans heq)]
              · cases hsome
          · rfl
      · rfl
  · rfl

theorem inSlot_apply (sets : Nat) (page : Word) (forWrite : Bool) (ops : List TlbOp) (op : TlbOp) :
    inSlot (((after sets ops).apply op).slots forWrite) ((new sets).setOf page) page =
      (slotWrite sets page forWrite op).getD
        (inSlot ((after sets ops).slots forWrite) ((new sets).setOf page) page) := by
  cases op with
  | flush => cases forWrite <;> simp [apply, flush, slots, slotWrite, inSlot]
  | insert page' forWrite' t =>
      have hset := setOf_after sets ops page'
      by_cases hkind : forWrite' = forWrite
      · -- The slot that is written.
        have hslots : ((after sets ops).insert page' forWrite' t).slots forWrite =
            ((after sets ops).slots forWrite).insert ((new sets).setOf page') ⟨page', t⟩ := by
          subst hkind
          cases forWrite' <;> (rw [← hset]; rfl)
        rw [apply, hslots, inSlot_insert]
        unfold slotWrite
        by_cases hpage : page' = page
        · subst hpage
          simp [hkind]
        · by_cases hsame : (new sets).setOf page' = (new sets).setOf page <;>
            simp [hkind, hpage, hsame]
      · -- The other one, which loses an old copy.
        have hslots : ((after sets ops).insert page' forWrite' t).slots forWrite =
            dropPage ((after sets ops).slots forWrite) ((new sets).setOf page') page' := by
          cases forWrite' <;> cases forWrite
          all_goals first | exact absurd rfl hkind | (rw [← hset]; rfl)
        rw [apply, hslots]
        unfold slotWrite
        by_cases hpage : page' = page
        · subst hpage
          simp [hkind, inSlot_dropPage_self]
        · simp [hkind, hpage, inSlot_dropPage_of_ne]

/-- A slot has for a page what was last inserted there, unless something has
been done since that takes it away. -/
theorem inSlot_after_iff (sets : Nat) (ops : List TlbOp) (page : Word) (forWrite : Bool)
    (t : PageMapping) :
    inSlot ((after sets ops).slots forWrite) ((new sets).setOf page) page = some t ↔
      ∃ earlier later, ops = earlier ++ .insert page forWrite t :: later ∧
        ∀ op ∈ later, slotWrite sets page forWrite op = none := by
  have hempty : inSlot ((new sets).slots forWrite) ((new sets).setOf page) page = none := by
    cases forWrite <;> simp [new, slots, inSlot]
  refine (seen_foldl_iff (fun b : Tlb => inSlot (b.slots forWrite) ((new sets).setOf page) page)
    (slotWrite sets page forWrite) hempty (inSlot_apply sets page forWrite) ops t).trans ?_
  constructor
  · rintro ⟨earlier, op, later, rfl, hop, hlater⟩
    cases op with
    | flush => cases hop
    | insert page' forWrite' t' =>
        dsimp only [slotWrite] at hop
        split at hop
        · next hpage =>
            split at hop
            · next hkind =>
                subst hpage hkind
                cases hop
                exact ⟨earlier, later, rfl, hlater⟩
            · cases hop
        · split at hop <;> cases hop
  · rintro ⟨earlier, later, rfl, hlater⟩
    exact ⟨earlier, _, later, rfl, by simp [slotWrite], hlater⟩

theorem slotWrite_eq_none_iff (sets : Nat) (page : Word) (forWrite : Bool) (op : TlbOp) :
    slotWrite sets page forWrite op = none ↔
      op ≠ .flush ∧ (∀ forWrite' t, op ≠ .insert page forWrite' t) ∧
        ∀ page' t, op = .insert page' forWrite t → page' ≠ page →
          (new sets).setOf page' ≠ (new sets).setOf page := by
  cases op with
  | flush => simp [slotWrite]
  | insert page' forWrite' t =>
      unfold slotWrite
      by_cases hpage : page' = page
      · simp [hpage]
      · simp only [hpage, if_false]
        by_cases hkind : forWrite' = forWrite <;> simp [hkind, hpage]

theorem LatestInsert.unique {ops : List TlbOp} {page : Word} {forWrite forWrite' : Bool}
    {t t' : PageMapping} {later later' : List TlbOp} (h : LatestInsert ops page forWrite t later)
    (h' : LatestInsert ops page forWrite' t' later') :
    forWrite = forWrite' ∧ t = t' ∧ later = later' := by
  obtain ⟨earlier, hsplit⟩ := h.split
  obtain ⟨earlier', hsplit'⟩ := h'.split
  obtain ⟨hop, hlater⟩ := last_unique (p := fun op => ∃ w u, op = .insert page w u)
    (hsplit.symm.trans hsplit') ⟨_, _, rfl⟩ ⟨_, _, rfl⟩
    (fun op hmem ⟨w, u, hop⟩ => h.latest w u (hop ▸ hmem))
    (fun op hmem ⟨w, u, hop⟩ => h'.latest w u (hop ▸ hmem))
  cases hop
  exact ⟨rfl, rfl, hlater⟩

theorem latestInsert_and_not_displaced_iff (sets : Nat) (ops : List TlbOp) (page : Word)
    (forWrite : Bool) (t : PageMapping) (later : List TlbOp) :
    LatestInsert ops page forWrite t later ∧ ¬Displaced sets page forWrite later ↔
      (∃ earlier, ops = earlier ++ .insert page forWrite t :: later) ∧
        ∀ op ∈ later, slotWrite sets page forWrite op = none := by
  have hsince : (∃ earlier, sinceFlush ops = earlier ++ .insert page forWrite t :: later) ↔
      (∃ earlier, ops = earlier ++ .insert page forWrite t :: later) ∧
        TlbOp.insert page forWrite t ≠ .flush ∧ ∀ op ∈ later, op ≠ .flush :=
    rtakeWhile_eq_append_cons_iff
  simp only [slotWrite_eq_none_iff]
  constructor
  · rintro ⟨⟨hsplit, hlatest⟩, hstays⟩
    obtain ⟨hsplit, -, hlater⟩ := hsince.1 hsplit
    refine ⟨hsplit, fun op hmem => ⟨hlater op hmem, ?_, ?_⟩⟩
    · rintro forWrite' t' rfl
      exact hlatest _ _ hmem
    · rintro page' t' rfl hpage hset
      exact hstays ⟨page', t', hmem, hpage, hset⟩
  · rintro ⟨hsplit, hlater⟩
    refine ⟨⟨hsince.2 ⟨hsplit, nofun, fun op hmem => (hlater op hmem).1⟩,
      fun forWrite' t' hmem => (hlater _ hmem).2.1 forWrite' t' rfl⟩, ?_⟩
    rintro ⟨page', t', hmem, hpage, hset⟩
    exact (hlater _ hmem).2.2 page' t' rfl hpage hset

theorem lookup_after_iff (sets : Nat) (ops : List TlbOp) (page : Word) (t : PageMapping) :
    (after sets ops).lookup page = some t ↔
      ∃ forWrite later, LatestInsert ops page forWrite t later ∧
        ¬Displaced sets page forWrite later := by
  rw [lookup_eq_some_iff (noPageTwice_after sets ops), setOf_after]
  simp only [inSlot_after_iff, latestInsert_and_not_displaced_iff]
  constructor
  · rintro ⟨forWrite, earlier, later, hsplit, hlater⟩
    exact ⟨forWrite, later, ⟨earlier, hsplit⟩, hlater⟩
  · rintro ⟨forWrite, later, ⟨earlier, hsplit⟩, hlater⟩
    exact ⟨forWrite, earlier, later, hsplit, hlater⟩

/-- The last mapping inserted for a page is found until another page of its set
has gone into its slot. A page is not found for this reason only, or because
nothing was inserted for it. -/
theorem latest_mapping_is_found (sets : Nat) (ops : List TlbOp) :
    (∀ page t, (after sets ops).lookup page = some t ↔
      ∃ forWrite later, LatestInsert ops page forWrite t later ∧
        ¬Displaced sets page forWrite later) ∧
    (∀ page, (after sets ops).lookup page = none ↔
      (∀ forWrite t, .insert page forWrite t ∉ sinceFlush ops) ∨
        ∃ forWrite t later, LatestInsert ops page forWrite t later ∧
          Displaced sets page forWrite later) ∧
    (after sets ops).NoPageTwice := by
  have hfound := fun page t => lookup_after_iff sets ops page t
  refine ⟨hfound, fun page => ?_, noPageTwice_after sets ops⟩
  constructor
  · intro hnone
    by_cases hinserted : ∃ op ∈ sinceFlush ops, ∃ forWrite t, op = .insert page forWrite t
    · obtain ⟨earlier, _, later, hsplit, ⟨forWrite, t, rfl⟩, hlater⟩ := exists_last hinserted
      have hlatest : LatestInsert ops page forWrite t later :=
        ⟨⟨earlier, hsplit⟩, fun forWrite' t' hmem => hlater _ hmem ⟨forWrite', t', rfl⟩⟩
      refine .inr ⟨forWrite, t, later, hlatest, ?_⟩
      by_contra hstays
      rw [(hfound page t).2 ⟨forWrite, later, hlatest, hstays⟩] at hnone
      cases hnone
    · exact .inl fun forWrite t hmem => hinserted ⟨_, hmem, forWrite, t, rfl⟩
  · intro hwhy
    rw [Option.eq_none_iff_forall_ne_some]
    intro t hsome
    obtain ⟨forWrite, later, hlatest, hstays⟩ := (hfound page t).1 hsome
    obtain hnever | ⟨forWrite', t', later', hlatest', hdisplaced⟩ := hwhy
    · obtain ⟨earlier, hsplit⟩ := hlatest.split
      exact hnever forWrite t (by simp [hsplit])
    · obtain ⟨rfl, -, rfl⟩ := hlatest.unique hlatest'
      exact hstays hdisplaced

end Tlb

/-! ## The instruction cache -/

/-- What is done to an instruction cache. -/
inductive CacheOp
  | fill (a : VirtAddr) (pair : Double)
  | invalidate
  | lookup (a : VirtAddr)
  | peek (a : VirtAddr)
  | clearCounts
  deriving DecidableEq

namespace InstructionCache

/-- The cache after an operation. -/
def apply (ic : InstructionCache) : CacheOp → InstructionCache
  | .fill a pair => ic.fill a pair
  | .invalidate => ic.invalidate
  | .lookup a => (ic.lookup a).2
  | .peek _ => ic
  | .clearCounts => ic.clearCounts

/-- A new cache after some operations, the first of them first. -/
def after (lines : Nat) (ops : List CacheOp) : InstructionCache := ops.foldl apply (new lines)

/-- The operations since the cache was last emptied. -/
def sinceInvalidate (ops : List CacheOp) : List CacheOp :=
  ops.rtakeWhile fun op => op ≠ .invalidate

/-- The operations since the counts were last started again. -/
def sinceClearCounts (ops : List CacheOp) : List CacheOp :=
  ops.rtakeWhile fun op => op ≠ .clearCounts

/-- The last fill of a line since the cache was last emptied: for which address
and with which pair. -/
def LatestFill (lines : Nat) (ops : List CacheOp) (line : BitVec 32) (a : VirtAddr)
    (pair : Double) : Prop :=
  ∃ earlier later, sinceInvalidate ops = earlier ++ .fill a pair :: later ∧
    (new lines).lineOf a = line ∧ ∀ a' pair', .fill a' pair' ∈ later → (new lines).lineOf a' ≠ line

theorem after_concat (lines : Nat) (ops : List CacheOp) (op : CacheOp) :
    after lines (ops ++ [op]) = (after lines ops).apply op := by
  rw [after, List.foldl_append]
  rfl

theorem lookup_lines (ic : InstructionCache) (a : VirtAddr) :
    (ic.lookup a).2.lines = ic.lines ∧ (ic.lookup a).2.lineBits = ic.lineBits := by
  unfold lookup
  split <;> exact ⟨rfl, rfl⟩

theorem lineOf_after (lines : Nat) (ops : List CacheOp) (a : VirtAddr) :
    (after lines ops).lineOf a = (new lines).lineOf a := by
  have hbits : (after lines ops).lineBits = (new lines).lineBits := by
    induction ops using List.reverseRecOn with
    | nil => rfl
    | append_singleton ops op ih =>
        rw [after_concat, ← ih]
        cases op with
        | lookup a => exact ((after lines ops).lookup_lines a).2
        | _ => rfl
  rw [lineOf, size, hbits]
  rfl

/-- What an operation does to a line. -/
def lineWrite (lines : Nat) (line : BitVec 32) : CacheOp → Option (Option CacheLine)
  | .fill a pair => if (new lines).lineOf a = line then some (some ⟨pairAddr a, pair⟩) else none
  | .invalidate => some none
  | _ => none

theorem get?_apply (lines : Nat) (line : BitVec 32) (ops : List CacheOp) (op : CacheOp) :
    ((after lines ops).apply op).lines.get? line =
      (lineWrite lines line op).getD ((after lines ops).lines.get? line) := by
  cases op with
  | fill a pair =>
      dsimp only [apply, fill, lineWrite]
      rw [Sparse.get?_insert, lineOf_after]
      by_cases hline : (new lines).lineOf a = line
      · rw [if_pos hline, if_pos hline, Option.getD_some]
      · rw [if_neg hline, if_neg hline, Option.getD_none]
  | invalidate =>
      have hempty : ((after lines ops).invalidate).lines.get? line = none := by
        rw [InstructionCache.invalidate, Sparse.get?_empty]
      exact hempty
  | lookup a => rw [apply, (lookup_lines ..).1]; rfl
  | peek a => rfl
  | clearCounts => rfl

/-- A line holds what it was last filled with. -/
theorem get?_after_iff (lines : Nat) (ops : List CacheOp) (line : BitVec 32) (tag : VirtAddr)
    (pair : Double) :
    (after lines ops).lines.get? line = some ⟨tag, pair⟩ ↔
      ∃ a, LatestFill lines ops line a pair ∧ pairAddr a = tag := by
  refine (seen_foldl_iff (fun ic : InstructionCache => ic.lines.get? line) (lineWrite lines line)
    (Sparse.get?_empty line) (get?_apply lines line) ops ⟨tag, pair⟩).trans ?_
  have hkeeps : ∀ op, lineWrite lines line op = none ↔
      op ≠ .invalidate ∧ ∀ a pair, op = .fill a pair → (new lines).lineOf a ≠ line := by
    intro op
    cases op with
    | fill a pair =>
        dsimp only [lineWrite]
        by_cases hline : (new lines).lineOf a = line
        · rw [if_pos hline]
          simp [hline]
        · rw [if_neg hline]
          simp [hline]
    | invalidate => exact ⟨nofun, fun h => absurd rfl h.1⟩
    | _ => exact ⟨fun _ => ⟨nofun, nofun⟩, fun _ => rfl⟩
  have hsince : ∀ a pair later,
      (∃ earlier, sinceInvalidate ops = earlier ++ .fill a pair :: later) ↔
        (∃ earlier, ops = earlier ++ .fill a pair :: later) ∧
          CacheOp.fill a pair ≠ .invalidate ∧ ∀ op ∈ later, op ≠ .invalidate :=
    fun _ _ _ => rtakeWhile_eq_append_cons_iff
  simp only [hkeeps]
  constructor
  · rintro ⟨earlier, op, later, hsplit, hop, hlater⟩
    cases op with
    | fill a pair' =>
        dsimp only [lineWrite] at hop
        split at hop
        · next hline =>
            cases hop
            obtain ⟨earlier', hsplit'⟩ := (hsince a pair later).2
              ⟨⟨earlier, hsplit⟩, nofun, fun op hmem => (hlater op hmem).1⟩
            exact ⟨a, ⟨earlier', later, hsplit', hline,
              fun a' pair' hmem => (hlater _ hmem).2 a' pair' rfl⟩, rfl⟩
        · cases hop
    | _ => cases hop
  · rintro ⟨a, ⟨earlier, later, hsplit, hline, hlatest⟩, rfl⟩
    obtain ⟨⟨earlier', hsplit'⟩, -, hlater⟩ := (hsince a pair later).1 ⟨earlier, hsplit⟩
    refine ⟨earlier', _, later, hsplit', if_pos hline, fun op hmem => ⟨hlater op hmem, ?_⟩⟩
    rintro a' pair' rfl
    exact hlatest a' pair' hmem

theorem lookup_fst (ic : InstructionCache) (a : VirtAddr) : (ic.lookup a).1 = ic.peek a := by
  unfold lookup
  split <;> next h => rw [h]

/-- The operation is a look at the cache that counts. -/
def CacheOp.looks : CacheOp → Bool
  | .lookup _ => true
  | _ => false

theorem hits_add_misses_lookup (ic : InstructionCache) (a : VirtAddr) :
    (ic.lookup a).2.hits + (ic.lookup a).2.misses = ic.hits + ic.misses + 1 := by
  unfold lookup
  split
  · exact Nat.add_right_comm ..
  · rfl

/-- Each look at the cache counts once. -/
theorem hits_add_misses (lines : Nat) (ops : List CacheOp) :
    (after lines ops).hits + (after lines ops).misses =
      (sinceClearCounts ops).countP CacheOp.looks := by
  induction ops using List.reverseRecOn with
  | nil => rfl
  | append_singleton ops op ih =>
      rw [after_concat, sinceClearCounts, List.rtakeWhile_concat]
      cases op with
      | clearCounts => rfl
      | lookup a =>
          rw [if_pos (by simp), List.countP_append, apply, hits_add_misses_lookup, ih]
          rfl
      | _ =>
          rw [if_pos (by simp), List.countP_append]
          exact ih

/-- An address is answered with the pair last put into its line, if that was for
the same pair of addresses, and each look at the cache counts as a hit or a
miss. -/
theorem latest_fill_is_found (lines : Nat) (ops : List CacheOp) :
    (∀ a pair, (after lines ops).peek a = some pair ↔
      ∃ a', LatestFill lines ops ((new lines).lineOf a) a' pair ∧ pairAddr a' = pairAddr a) ∧
    (∀ a, ((after lines ops).lookup a).1 = (after lines ops).peek a) ∧
    (∀ a a', pairAddr a' = pairAddr a → (after lines ops).peek a' = (after lines ops).peek a) ∧
    (∀ a a' pair, (after lines ops).peek a = some pair →
      (new lines).lineOf a' = (new lines).lineOf a → pairAddr a' ≠ pairAddr a →
      (after lines ops).peek a' = none) ∧
    (after lines ops).hits + (after lines ops).misses =
      (sinceClearCounts ops).countP CacheOp.looks := by
  refine ⟨fun a pair => ?_, fun a => lookup_fst _ a, fun a a' htag => ?_, ?_,
    hits_add_misses lines ops⟩
  · rw [peek_eq_some_iff, Keeps, lineOf_pairAddr, lineOf_after, get?_after_iff]
  · have hline : (after lines ops).lineOf a' = (after lines ops).lineOf a := by
      rw [← lineOf_pairAddr, htag, lineOf_pairAddr]
    rw [peek, peek, hline, htag]
  · intro a a' pair hfound hline htag
    rw [peek_eq_some_iff, Keeps, lineOf_pairAddr, lineOf_after] at hfound
    rw [peek, lineOf_after, hline, hfound]
    exact if_neg htag.symm

end InstructionCache

end I860
