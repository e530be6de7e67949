import I860.Proofs.Coherence
import I860.Proofs.Lookups

/-!
# The instruction cache is transparent but for privilege

A line of the instruction cache is as good as memory as long as it is
`Faithful`: the pair in it is what memory holds at the place that its address
translates to, and whatever is kept of its page in the lookaside buffer agrees
with the tables. A line is faithful when it is filled, unless a mapping was
used that the tables had left behind by then, and it stays so while nobody
writes to the pair or to the entries of its page (`Undisturbed`). Nothing has
to be asked of the directory base, because a change of it empties the cache.

What is missing is a check. A fetch that finds a line asks nobody whether the
page is open to the mode that the processor is in now. So the one case in
which the cache shows is that of a line filled in supervisor mode from a page
that is closed to users (`instruction_cache_is_transparent`). User mode is
then given the word, where memory would have refused it.
-/

namespace I860

variable {β α : Type}

/-- What a program answers, or the fault that it stops with. -/
def answerOf : EStateM.Result Fault (Cpu β) α → Except Fault α
  | .ok a _ => .ok a
  | .error e _ => .error e

namespace Cpu

/-- The processor with every line of its instruction cache invalid. -/
def withoutLines (c : Cpu β) : Cpu β := { c with icache := c.icache.invalidate }

/-- The processor in supervisor mode. -/
def asSupervisor (c : Cpu β) : Cpu β := c.setPsr { c.control.psr with u := false }

variable [Bus β]

/-- Where the tables, if they are in use, place an address. -/
def place (c : Cpu β) (vaddr : VirtAddr) : PhysAddr :=
  if c.control.dirbase.ate then (c.pathOf vaddr).mapping.address vaddr else vaddr

/-- The processor is in user mode, and the page of an instruction is closed to
users. -/
def bars (c : Cpu β) (pc : VirtAddr) : Bool :=
  c.control.dirbase.ate && c.control.psr.u &&
    !(c.pathOf (InstructionCache.pairAddr pc)).mapping.user

end Cpu

variable [Bus β]

/-! ## Fetching without the cache -/

/-- What memory answers to a fetch. -/
def Cpu.answerOfMemory (c : Cpu β) (pc : VirtAddr) : Except Fault Word :=
  match c.mmu.translate c.order c.board c.control.dirbase (InstructionCache.pairAddr pc) .fetch
    c.privilege with
  | (.ok paddr, _, board) => .ok (wordOfPair pc (pairAt board paddr))
  | (.error kind, _, _) => .error (.trap (.ofKind kind))

theorem answerOf_fetch_of_miss {c : Cpu β} {pc : VirtAddr} (h : c.icache.peek pc = none) :
    answerOf (fetch pc c) = c.answerOfMemory pc := by
  rw [fetch_of_miss h, Cpu.answerOfMemory]
  generalize c.mmu.translate c.order c.board c.control.dirbase (InstructionCache.pairAddr pc)
    .fetch c.privilege = r
  obtain ⟨result, mmu, board⟩ := r
  cases result with
  | ok paddr => rfl
  | error kind => rfl

theorem answerOf_fetch_withoutLines (c : Cpu β) (pc : VirtAddr) :
    answerOf (fetch pc c.withoutLines) = c.answerOfMemory pc := by
  have hnone : c.withoutLines.icache.peek pc = none := by
    cases hpeek : c.withoutLines.icache.peek pc with
    | none => rfl
    | some pair =>
        rw [InstructionCache.peek_eq_some_iff] at hpeek
        exact absurd hpeek (c.icache.not_keeps_invalidate _ pair)
  rw [answerOf_fetch_of_miss hnone]
  rfl

/-! ## Faithful lines -/

/-- The tables have not left behind what the lookaside buffer keeps of a page. -/
def Fresh (tag : VirtAddr) (c : Cpu β) : Prop :=
  c.control.dirbase.ate = true →
    PageAgrees c.order c.control.dirbase.dtb c.board c.mmu.tlb tag

/-- A line holds what memory holds, and what the lookaside buffer keeps of its
page agrees with the tables. -/
structure Faithful (c : Cpu β) (tag : VirtAddr) (pair : Double) : Prop where
  page : c.control.dirbase.ate = true → (c.pathOf tag).mapping.Agrees (c.pathOf tag)
  kept : Fresh tag c
  memory : pairAt c.board (c.place tag) = pair

/-- An act leaves the byte order, the entries of a page and a pair in it as they
are, up to accessed and dirty bits of the entries. -/
structure Quiet (tag : VirtAddr) (c d : Cpu β) : Prop where
  byteOrder : d.control.epsr.be = c.control.epsr.be
  tables : c.control.dirbase.ate = true → (c.pathOf tag).Marked (d.pathOf tag)
  memory : pairAt d.board (c.place tag) = pairAt c.board (c.place tag)

theorem PageMapping.Agrees.self {t : PageMapping} {p : PagePath} (h : t.Agrees p) :
    p.mapping.Agrees p :=
  ⟨h.directoryPresent, h.tablePresent, h.directoryAccessed, h.tableAccessed, rfl, rfl, rfl, id⟩

/-- The only thing that can keep a fetch from a page that is there. -/
theorem PageMapping.grants_fetch (t : PageMapping) (who : Privilege) :
    t.grants .fetch who = !(who.user && !t.user) := by
  simp [PageMapping.grants, permits, AccessKind.isWrite]

theorem pairAt_congr [PlainMemory β] {board board' : β}
    (h : ∀ a, Bus.readByte board' a = Bus.readByte board a) (paddr : PhysAddr) :
    pairAt board' paddr = pairAt board paddr := by
  unfold pairAt Bus.load
  rw [PlainMemory.readBytes_eq, PlainMemory.readBytes_eq, funext h]

namespace Faithful

variable {c d : Cpu β} {tag : VirtAddr} {pair : Double}

theorem keep (h : Faithful c tag pair) (hconsults : Consults c d) (horder : d.order = c.order)
    (hquiet : Quiet tag c d) : Faithful d tag pair := by
  have hpath : d.pathOf tag = .of c.order d.board c.control.dirbase.dtb tag := by
    rw [Cpu.pathOf, horder, hconsults.dtb]
  have hkept : c.control.dirbase.ate = true →
      PageAgrees c.order c.control.dirbase.dtb c.board d.mmu.tlb tag := by
    intro hate t hkeeps
    obtain hold | rfl := hconsults.mappings tag t hkeeps
    · exact h.kept hate t hold
    · exact h.page hate
  have hplace : d.place tag = c.place tag := by
    unfold Cpu.place
    rw [hconsults.ate]
    split
    · next hate =>
        have hmoved := (h.page hate).of_marked (hquiet.tables hate)
        rw [hmoved.address_eq]
    · rfl
  refine ⟨fun hate => ?_, fun hate => ?_, ?_⟩
  · rw [hconsults.ate] at hate
    exact ((h.page hate).of_marked (hquiet.tables hate)).self
  · rw [hconsults.ate] at hate
    have hmarked := hquiet.tables hate
    rw [hpath] at hmarked
    rw [horder, hconsults.dtb]
    exact (hkept hate).of_marked hmarked
  · rw [hplace, hquiet.memory, h.memory]

variable [PlainMemory β]

/-- A line is faithful when it is filled. -/
theorem of_fills (hfills : Fills c d tag pair) (hconsults : Consults c d)
    (hdtb : PageAligned c.control.dirbase.dtb) (hfresh : Fresh tag c) :
    Faithful d tag pair := by
  obtain ⟨paddr, htranslated, hpair, horder⟩ := hfills
  cases hate : c.control.dirbase.ate with
  | false =>
      have hoff : d.control.dirbase.ate = false := hconsults.ate.trans hate
      have hplace : d.place tag = tag := by
        rw [Cpu.place, hoff]
        rfl
      have hsame : paddr = tag := by
        unfold Mmu.translate at htranslated
        rw [hate] at htranslated
        exact (Except.ok.inj (Prod.mk.inj htranslated).1).symm
      refine ⟨fun hon => ?_, fun hon => ?_, ?_⟩
      · rw [hoff] at hon
        cases hon
      · rw [hoff] at hon
        cases hon
      · rw [hplace, ← hsame, hpair]
  | true =>
      have hagrees := (hfresh hate).translate hdtb tag .fetch c.privilege
      rw [htranslated] at hagrees
      -- The pair was read through a mapping that is now kept.
      obtain ⟨t, hlookup, -, -, haddr⟩ := Tlb.answers_of_translate hate htranslated
      have ht := hagrees t (Tlb.keeps_of_lookup hlookup)
      have hpath : d.pathOf tag = .of c.order d.board c.control.dirbase.dtb tag := by
        rw [Cpu.pathOf, horder, hconsults.dtb]
      have hplace : d.place tag = paddr := by
        rw [Cpu.place, hconsults.ate, hate, if_pos rfl, hpath, ← ht.address_eq, haddr]
      refine ⟨fun _ => ?_, fun _ => ?_, ?_⟩
      · rw [hpath]
        exact ht.self
      · rw [horder, hconsults.dtb]
        exact hagrees
      · rw [hplace, hpair]

/-- Where there is a faithful line, memory answers with the word in it, if the
page is open. -/
theorem answerOfMemory {pc : VirtAddr} (h : Faithful c (InstructionCache.pairAddr pc) pair) :
    c.answerOfMemory pc =
      if c.bars pc then .error (.trap (.ofKind .instructionAccess))
      else .ok (wordOfPair pc pair) := by
  have hmemory := h.memory
  unfold Cpu.answerOfMemory Cpu.bars
  unfold Cpu.place at hmemory
  cases hate : c.control.dirbase.ate with
  | false =>
      rw [hate] at hmemory
      rw [← hmemory]
      simp [Mmu.translate, hate]
  | true =>
      rw [hate, if_pos rfl] at hmemory
      have hpage := h.page hate
      obtain ⟨hresult, hbytes⟩ := translate_eq_walk hate (h.kept hate) .fetch c.privilege
      have hgrants : (c.pathOf (InstructionCache.pairAddr pc)).mapping.grants .fetch
          c.privilege =
          !(c.control.psr.u && !(c.pathOf (InstructionCache.pairAddr pc)).mapping.user) :=
        PageMapping.grants_fetch _ _
      generalize c.mmu.translate c.order c.board c.control.dirbase
        (InstructionCache.pairAddr pc) .fetch c.privilege = r at hresult hbytes
      obtain ⟨result, mmu, board⟩ := r
      dsimp only at hresult hbytes
      rw [Bool.true_and]
      cases hbarred : c.control.psr.u &&
          !(c.pathOf (InstructionCache.pairAddr pc)).mapping.user with
      | true =>
          rw [hbarred] at hgrants
          rw [hpage.walk_of_refused hgrants] at hresult
          rw [hresult]
          rfl
      | false =>
          rw [hbarred] at hgrants
          obtain ⟨hwalk, hsame⟩ := hpage.walk_of_granted hgrants rfl
          rw [hwalk] at hresult
          rw [hresult]
          have hpair : pairAt board _ = pair :=
            (pairAt_congr (fun a => (hbytes a).trans (hsame a)) _).trans hmemory
          dsimp only
          rw [hpair]
          rfl

end Faithful

/-! ## Over a run -/

/-- A processor has been built from a configuration, and goes from one state to
the next by single acts. -/
structure ActRun (config : Config) (run : Nat → Cpu β) (n : Nat) : Prop where
  built : ∃ board, Cpu.new board config = .ok (run 0)
  acts : ∀ j < n, Act (run j) (run (j + 1))

/-- Since a line was filled that is still there at time `n`, its pair and the
entries of its page have been left alone, and it was not filled through a
mapping that the tables had left behind. -/
structure Undisturbed (run : Nat → Cpu β) (n : Nat) (tag : VirtAddr) (pair : Double) :
    Prop where
  quiet : ∀ j < n, (∀ k, j ≤ k → k ≤ n → (run k).icache.Keeps tag pair) →
    Quiet tag (run j) (run (j + 1))
  fresh : ∀ j < n, ¬(run j).icache.Keeps tag pair →
    (∀ k, j < k → k ≤ n → (run k).icache.Keeps tag pair) → Fresh tag (run j)

theorem Coherent.act {params : CpuParams} {c d : Cpu β} (h : Coherent params c)
    (hact : Act c d) : Coherent params d := by
  cases hact with
  | interlude hinterlude => exact h.interlude hinterlude
  | execute hstraight hran => exact h.execute hstraight hran
  | host haction => exact h.host haction
  | reset =>
      have hreset := Coherent.reset c
      rwa [h.built] at hreset

namespace ActRun

variable {config : Config} {run : Nat → Cpu β} {n : Nat}

theorem coherent (h : ActRun config run n) {m : Nat} (hm : m ≤ n) :
    Coherent (.ofConfig config) (run m) := by
  induction m with
  | zero =>
      obtain ⟨board, hbuilt⟩ := h.built
      exact (Reachable.new hbuilt).coherent
  | succ m ih => exact (ih (by omega)).act (h.acts m (by omega))

theorem order_eq (h : ActRun config run n) {m : Nat} (hm : m < n)
    (hbe : (run (m + 1)).control.epsr.be = (run m).control.epsr.be) :
    (run (m + 1)).order = (run m).order := by
  rw [(h.coherent (m := m + 1) (by omega)).order, (h.coherent (m := m) (by omega)).order, hbe]

theorem extend (h : ActRun config run n) {d : Cpu β} (hact : Act (run n) d) :
    ∃ run', ActRun config run' (n + 1) ∧ run' (n + 1) = d := by
  refine ⟨fun k => if k ≤ n then run k else d, ⟨?_, fun j hj => ?_⟩, if_neg (by omega)⟩
  · rw [if_pos (Nat.zero_le n)]
    exact h.built
  · rw [if_pos (show j ≤ n by omega)]
    by_cases hlast : j < n
    · rw [if_pos (show j + 1 ≤ n by omega)]
      exact h.acts j hlast
    · obtain rfl : j = n := by omega
      rw [if_neg (show ¬j + 1 ≤ j by omega)]
      exact hact

end ActRun

/-- Whatever state a processor gets into, by steps, resets and what the host
does, there is a run of acts to it. -/
theorem Reachable.exists_run {config : Config} {c : Cpu β} (h : Reachable config c) :
    ∃ run n, ActRun config run n ∧ run n = c := by
  have hextend : ∀ {c d : Cpu β}, Relation.ReflTransGen Act c d →
      (∃ run n, ActRun config run n ∧ run n = c) →
      ∃ run n, ActRun config run n ∧ run n = d := by
    intro c d hacts hc
    induction hacts with
    | refl => exact hc
    | tail _ hact ih =>
        obtain ⟨run, n, hrun, rfl⟩ := ih
        obtain ⟨run', hrun', hd⟩ := hrun.extend hact
        exact ⟨run', n + 1, hrun', hd⟩
  induction h with
  | @new board c built => exact ⟨fun _ => c, 0, ⟨⟨board, built⟩, by omega⟩, rfl⟩
  | reset _ ih => exact hextend (.single .reset) ih
  | @step c _ ih => exact hextend (step_course c).acts ih
  | host _ haction ih => exact hextend (.single (.host haction)) ih

variable [PlainMemory β]

/-- A line that was left alone is faithful from when it is filled. -/
theorem Undisturbed.faithful {config : Config} {run : Nat → Cpu β} {n : Nat} {tag : VirtAddr}
    {pair : Double} (h : Undisturbed run n tag pair) (hrun : ActRun config run n) {m : Nat}
    (hm : m ≤ n) (hkept : ∀ k, m ≤ k → k ≤ n → (run k).icache.Keeps tag pair) :
    Faithful (run m) tag pair := by
  induction m with
  | zero =>
      obtain ⟨board, hbuilt⟩ := hrun.built
      have hempty : (run 0).icache = (Cpu.powerUp board config).icache.invalidate := by
        rw [(Cpu.eq_of_new hbuilt).2]
        unfold Cpu.reset
        rfl
      have hkeeps := hkept 0 (Nat.le_refl 0) hm
      rw [hempty] at hkeeps
      exact absurd hkeeps (InstructionCache.not_keeps_invalidate _ tag pair)
  | succ m ih =>
      have hkeeps := hkept (m + 1) (Nat.le_refl _) hm
      obtain hupkeep | hempty := (hrun.acts m (by omega)).upkeep
      · -- The line was there before the act, or the act has filled it.
        by_cases hbefore : (run m).icache.Keeps tag pair
        · have hsince : ∀ k, m ≤ k → k ≤ n → (run k).icache.Keeps tag pair := by
            intro k hk hkn
            by_cases heq : k = m
            · rw [heq]
              exact hbefore
            · exact hkept k (by omega) hkn
          have hquiet := h.quiet m (by omega) hsince
          have horder := hrun.order_eq (by omega) hquiet.byteOrder
          exact (ih (by omega) hsince).keep hupkeep.toConsults horder hquiet
        · obtain hold | hfills := hupkeep.lines tag pair hkeeps
          · exact absurd hold hbefore
          · have hfresh := h.fresh m (by omega) hbefore fun k hk hkn => hkept k hk hkn
            exact .of_fills hfills hupkeep.toConsults (hrun.coherent (by omega)).directory hfresh
      · exact absurd hkeeps (hempty tag pair)

/-! ## A run into user mode -/

/-- A directory at 0x1000 whose first table, at 0x2000, has two pages: one at
0x3000 that is closed to users, and one at 0x4000 that is open. A word of code
lies in each. -/
def twoPages : OpenMemory :=
  let tables := Bus.storeWord .little (Bus.storeWord .little (Bus.storeWord .little .blank
    0x1000#32 0x2007#32) 0x200c#32 0x3003#32) 0x2010#32 0x4007#32
  Bus.storeWord .little (Bus.storeWord .little tables 0x3000#32 0xe4040001#32) 0x4000#32
    0xe4040002#32

/-- The host turns paging on, looks at the instruction at `pc`, and sets user
mode. -/
def intoUserMode (pc : VirtAddr) (k : Nat) : Cpu OpenMemory :=
  let built := (Cpu.powerUp twoPages .default).reset
  let paged := built.writeControl .dirbase 0x1001#32
  let inspected := (paged.inspectInstruction pc).2
  match k with
  | 0 => built
  | 1 => paged
  | 2 => inspected
  | _ => inspected.writeControl .psr 0x40#32

theorem intoUserMode_run (pc : VirtAddr) : ActRun .default (intoUserMode pc) 3 := by
  have hnew : Cpu.new twoPages .default = .ok (intoUserMode pc 0) := by
    have hvalid : Config.default.validate = .ok Config.default := rfl
    unfold Cpu.new
    rw [hvalid, selfTest_eq]
    rfl
  refine ⟨⟨twoPages, hnew⟩, fun j hj => ?_⟩
  match j, hj with
  | 0, _ => exact .host (.writeControl .dirbase 0x1001#32)
  | 1, _ => exact .host (.inspectInstruction pc)
  | 2, _ => exact .host (.writeControl .psr 0x40#32)

/-- Nothing is written to memory on the way, and the lookaside buffer is empty
when the line is filled. -/
theorem intoUserMode_undisturbed (pc tag : VirtAddr) (pair : Double) :
    Undisturbed (intoUserMode pc) 3 tag pair := by
  have hempty : ¬(intoUserMode pc 1).icache.Keeps tag pair := by
    have hlines : (intoUserMode pc 1).icache.lines = Sparse.empty := by rfl
    unfold InstructionCache.Keeps
    rw [hlines]
    simp
  constructor
  · intro j hj hkept
    match j, hj with
    | 0, _ => exact absurd (hkept 1 (by omega) (by omega)) hempty
    | 1, _ => exact absurd (hkept 1 (by omega) (by omega)) hempty
    | 2, _ => exact ⟨rfl, fun _ => TablesKept.refl _ tag, rfl⟩
  · intro j hj hmissing hkept
    match j, hj with
    | 0, _ => exact absurd (hkept 1 (by omega) (by omega)) hempty
    | 1, _ =>
        intro _ t hkeeps
        have hflushed : (intoUserMode pc 1).mmu.tlb =
            (Tlb.new Config.default.core.tlbSets).flush := by
          rfl
        rw [hflushed] at hkeeps
        exact absurd hkeeps (Tlb.not_keeps_flush _ _ t)
    | 2, _ => exact absurd (hkept 3 (by omega) (by omega)) hmissing

/-! ## Transparency -/

/-- After any run, a fetch gives the word or the trap that it would give with
every line of the cache invalid, except where it finds a line and user mode is
barred from the page. Memory then refuses the fetch, and the cache gives the
word that memory has for the supervisor. The line that the fetch finds, if it
finds one, has to be undisturbed. -/
theorem instruction_cache_is_transparent {config : Config} {run : Nat → Cpu β} {n : Nat}
    (hrun : ActRun config run n) (pc : VirtAddr)
    (hline : ∀ pair, (run n).icache.Keeps (InstructionCache.pairAddr pc) pair →
      Undisturbed run n (InstructionCache.pairAddr pc) pair) :
    ((run n).icache.peek pc = none ∨ (run n).bars pc = false →
        answerOf (fetch pc (run n)) = answerOf (fetch pc (run n).withoutLines)) ∧
      ∀ pair, (run n).icache.peek pc = some pair → (run n).bars pc = true →
        answerOf (fetch pc (run n).withoutLines) =
            .error (.trap (.ofKind .instructionAccess)) ∧
          answerOf (fetch pc (run n)) = .ok (wordOfPair pc pair) ∧
          answerOf (fetch pc (run n).asSupervisor.withoutLines) = .ok (wordOfPair pc pair) := by
  have hfaithful : ∀ pair, (run n).icache.peek pc = some pair →
      Faithful (run n) (InstructionCache.pairAddr pc) pair := by
    intro pair hpeek
    rw [InstructionCache.peek_eq_some_iff] at hpeek
    refine (hline pair hpeek).faithful hrun (Nat.le_refl n) fun k hk hkn => ?_
    rw [show k = n by omega]
    exact hpeek
  have hhit : ∀ pair, (run n).icache.peek pc = some pair →
      answerOf (fetch pc (run n)) = .ok (wordOfPair pc pair) := by
    intro pair hpeek
    rw [fetch_of_hit hpeek]
    rfl
  rw [answerOf_fetch_withoutLines, answerOf_fetch_withoutLines]
  constructor
  · intro hopen
    cases hpeek : (run n).icache.peek pc with
    | none => exact answerOf_fetch_of_miss hpeek
    | some pair =>
        have hbars : (run n).bars pc = false := by
          obtain hnone | hbars := hopen
          · rw [hpeek] at hnone
            cases hnone
          · exact hbars
        rw [hhit pair hpeek, (hfaithful pair hpeek).answerOfMemory, hbars]
        rfl
  · intro pair hpeek hbars
    have huser := hfaithful pair hpeek
    have hsupervisor : Faithful (run n).asSupervisor (InstructionCache.pairAddr pc) pair :=
      ⟨huser.page, huser.kept, huser.memory⟩
    have hunbarred : (run n).asSupervisor.bars pc = false := by
      simp [Cpu.bars, Cpu.asSupervisor, Cpu.setPsr]
    rw [huser.answerOfMemory, hsupervisor.answerOfMemory, hbars, hunbarred]
    exact ⟨rfl, hhit pair hpeek, rfl⟩

/-- User mode fetches a line of a page that is open to it, and gets what memory
would give. -/
theorem instruction_cache_is_transparent_of_open_page :
    let c := intoUserMode 0x4000#32 3
    c.control.psr.u = true ∧ (c.icache.peek 0x4000#32).isSome = true ∧
      answerOf (fetch 0x4000#32 c) = answerOf (fetch 0x4000#32 c.withoutLines) := by
  intro c
  have huser : c.control.psr.u = true := by decide +kernel
  have hpeek : (c.icache.peek 0x4000#32).isSome = true := by decide +kernel
  have hopen : c.bars 0x4000#32 = false := by decide +kernel
  have htransparent := instruction_cache_is_transparent (intoUserMode_run 0x4000#32) 0x4000#32
    fun pair _ => intoUserMode_undisturbed 0x4000#32 _ pair
  exact ⟨huser, hpeek, htransparent.1 (.inr hopen)⟩

/-- User mode fetches a line of a page that is closed to it. The line is
undisturbed, and still the fetch gives its word, where memory would refuse it. -/
theorem supervisor_line_answers_user :
    ActRun .default (intoUserMode 0x3000#32) 3 ∧
      (∀ tag pair, Undisturbed (intoUserMode 0x3000#32) 3 tag pair) ∧
      (answerOf (fetch 0x3000#32 (intoUserMode 0x3000#32 3))).toOption = some 0xe4040001#32 ∧
      (answerOf (fetch 0x3000#32 (intoUserMode 0x3000#32 3).withoutLines)).toOption =
        none := by
  have hcached : (answerOf (fetch 0x3000#32 (intoUserMode 0x3000#32 3))).toOption =
      some 0xe4040001#32 := by
    decide +kernel
  have hrefused : (answerOf (fetch 0x3000#32
      (intoUserMode 0x3000#32 3).withoutLines)).toOption = none := by
    decide +kernel
  exact ⟨intoUserMode_run _, intoUserMode_undisturbed _, hcached, hrefused⟩

/-- A mapping that the tables have left behind. The page at 0x4000 is moved to
0x3000, but its old mapping is still kept when its first line is filled, and is
gone afterwards, since the lookaside buffer has a single set. -/
example :
    let config := { Config.default with core := { Config.default.core with tlbSets := 1 } }
    let paged := (Cpu.powerUp twoPages config).reset.writeControl .dirbase 0x1001#32
    let mapped := (paged.inspectInstruction 0x4008#32).2
    let moved := { mapped with board := Bus.storeWord .little mapped.board 0x2010#32 0x3007#32 }
    let c := ((moved.inspectInstruction 0x4000#32).2.inspectInstruction 0x3008#32).2
    (answerOf (fetch 0x4000#32 c)).toOption = some 0xe4040002#32 ∧
      (answerOf (fetch 0x4000#32 c.withoutLines)).toOption = some 0xe4040001#32 := by
  decide +kernel

end I860
