import PagedKernel.Proofs.Spaces.Listing
import PagedKernel.Proofs.Spaces.Separation

/-!
# Page tables are finite maps

A page table behaves as a partial map from the first addresses of pages to the address of a page and
flags. To map a page, with a page table or a cursor, changes the map at one address, and so does to
remove a mapping; the result tells what was there before. A walk finds what the map says. All this
holds for any number of separate page tables in one memory, each with a map of its own.

A call takes over the handle to a page that holds no table. What happens between two calls does not
matter, as long as it leaves the tables alone.

Key definitions: `PageTable.Contents`, `PageTable.Call.Meets`, `PageTable.Run`, `PageTable.MapRun`.
Key theorems: `Frames.Separate.perform_ends`, `PageTable.Run.refines_maps`.
-/

namespace PagedKernel

variable {n : Nat} {f f' : Frames n} {g g' : Shape} {tables : Set PageTable}

/-! ### The maps -/

/-- The first address of a page of an address space. -/
abbrev PageBase := { va : VirtAddr // va.Canonical ∧ va.isAligned = true }

/-- The first address of the page that holds `va`. -/
def VirtAddr.base (va : VirtAddr) (h : va.Canonical) : PageBase :=
  ⟨va.pageDown, h.pageDown, va.isAligned_pageDown⟩

theorem PageBase.toNat_mod (va : PageBase) : va.1.toNat % pageSize = 0 := by
  have ha := va.2.2
  unfold VirtAddr.isAligned at ha
  exact beq_iff_eq.mp ha

/-- The pages of a space have different numbers. -/
theorem PageBase.page_injective {va va' : PageBase} (h : va'.1.page = va.1.page) : va' = va := by
  have hdiv := va.2.1.div_eq va'.2.1 h
  have hnat : va'.1.val.toNat = va.1.val.toNat := by
    calc va'.1.toNat
        = pageSize * (va'.1.toNat / pageSize) + va'.1.toNat % pageSize := (Nat.div_add_mod _ _).symm
      _ = pageSize * (va.1.toNat / pageSize) + va.1.toNat % pageSize := by
        rw [hdiv, va.toNat_mod, va'.toNat_mod]
      _ = va.1.toNat := Nat.div_add_mod _ _
  obtain ⟨⟨a⟩, ha⟩ := va
  obtain ⟨⟨a'⟩, ha'⟩ := va'
  exact Subtype.ext (congrArg VirtAddr.mk (UInt64.toNat_inj.mp hnat))

namespace PageTable

/-- What a page table maps: for each page the address of a page and flags, or nothing. -/
abbrev Contents := PageBase → Option (PhysAddr × Flags)

/-- The address and the flags of a leaf. -/
def target (e : Entry) : PhysAddr × Flags :=
  (e.addr, e.flags)

/-- What the leaves of the page table map. -/
def contents (t : PageTable) (m : Memory n) : Contents :=
  fun va => (m.mapped t.root.number va.1.page).map target

/-- A change of the map at one page number is one at its address. -/
theorem contents_update {t : PageTable} {m m' : Memory n} {e : Option Entry} (va : PageBase)
    (h : m'.mapped t.root.number = Function.update (m.mapped t.root.number) va.1.page e) :
    t.contents m' = Function.update (t.contents m) va (e.map target) := by
  funext va'
  unfold contents
  rw [h]
  by_cases hva : va' = va
  · rw [hva, Function.update_self, Function.update_self]
  · have hpage : va'.1.page ≠ va.1.page := fun hpage => hva (PageBase.page_injective hpage)
    rw [Function.update_of_ne hva, Function.update_of_ne hpage]

/-! ### Calls -/

/-- What a call returns: a handle to the page that was mapped before, if one was. -/
abbrev Answer := Except MapError (Option FrameRef)

/-- A call that maps a page or removes a mapping, of a page table or of a cursor of it. -/
inductive Call
  | map (va : VirtAddr) (page : FrameRef) (perm : Permission)
  | replace (va : VirtAddr) (page : FrameRef) (perm : Permission)
  | unmap (va : VirtAddr)
  | cursorMap (va : VirtAddr) (page : FrameRef) (perm : Permission)
  | cursorUnmap (va : VirtAddr)

namespace Call

/-- The call for the page table `t`. -/
def perform (t : PageTable) : Call → FramesM n Answer
  | map va page perm => do return (← t.map va page perm).map fun _ => none
  | replace va page perm => t.replace va page perm
  | unmap va => do return (← t.unmap va).map some
  | cursorMap va page perm => (t.cursor va).install page perm
  | cursorUnmap va => do return (← (t.cursor va).unmap).map some

def va : Call → VirtAddr
  | map va _ _ | replace va _ _ | unmap va | cursorMap va _ _ | cursorUnmap va => va

def handle? : Call → Option FrameRef
  | map _ page _ | replace _ page _ | cursorMap _ page _ => some page
  | unmap _ | cursorUnmap _ => none

/-- What is mapped at its address if it succeeds. -/
def result : Call → Option (PhysAddr × Flags)
  | map _ page perm | replace _ page perm | cursorMap _ page perm => some (page.pa, perm.toFlags)
  | unmap _ | cursorUnmap _ => none

/-- The causes for which a call that maps a page may fail, whatever is mapped. -/
def NoPlace (call : Call) (cause : MapError) : Prop :=
  cause = .unaligned ∨ cause = .invalidAddress ∧ call.va.val = 0 ∨ cause = .outOfMemory

/-- When and for what a call may fail, where the map is defined at its address or not. -/
def FailsFor (call : Call) (defined : Prop) (answer : Answer) : Prop :=
  match call with
  | map .. => (answer = .error .duplicated ↔ defined) ∧
      ∀ cause, answer = .error cause → cause = .duplicated ∨ call.NoPlace cause
  | replace .. | cursorMap .. => ∀ cause, answer = .error cause → call.NoPlace cause
  | unmap _ | cursorUnmap _ => ((∃ cause, answer = .error cause) ↔ ¬ defined) ∧
      ∀ cause, answer = .error cause → cause = .unaligned ∨ cause = .notExist

/-- **The call as one of a partial map**: where `F` is the map before, it may return `answer` and
leave the map `F'`. -/
structure Meets (call : Call) (F : Contents) (answer : Answer) (F' : Contents) : Prop where
  ok : ∀ old, answer = .ok old → ∃ h, F' = Function.update F ⟨call.va, h⟩ call.result ∧
    old = (F ⟨call.va, h⟩).map fun x => .ofAddr x.1
  error : ∀ cause, answer = .error cause → F' = F
  unaligned : answer = .error .unaligned ↔ call.va.isAligned = false
  fails : call.FailsFor (∃ h, F ⟨call.va, h⟩ ≠ none) answer

/-- The address is canonical, and the handle that is taken over is one to a page that holds no
table. -/
structure Permitted (call : Call) (tables : Set PageTable) (f : Frames n) : Prop where
  canonical : call.va.Canonical
  handle : ∀ page, call.handle? = some page →
    f.count page.number ≠ 0 ∧ ¬ f.memory.HoldsTable tables page.number

/-- What a call leaves that fails: the handle that it has taken over, if any, is given back. -/
def GivesBack (call : Call) (f f' : Frames n) : Prop :=
  match call.handle? with
  | some page => GivenBack page.number f f'
  | none => f' = f

theorem GivesBack.samePages {call : Call} (h : call.GivesBack f f') (hp : Planted g f)
    (hhandle : ∀ page, call.handle? = some page → g page.number = none) :
    SamePages (g · ≠ none) f f' := by
  unfold GivesBack at h
  split at h
  · next page hpage => exact hp.givenBack (hhandle page hpage) h
  · exact h ▸ .refl _ _

namespace Meets

variable {call : Call} {F F' : Contents} {answer : Answer} {va : VirtAddr} {page : FrameRef}
  {perm : Permission}

/-- There is a place for a page, but at the null page, if there is memory enough for the tables. -/
theorem hasPlace (h : call.Meets F answer F') (ha : call.va.isAligned = true)
    (hnull : call.va.val ≠ 0) (hmem : answer ≠ .error .outOfMemory) {cause : MapError}
    (hcause : answer = .error cause) : ¬ call.NoPlace cause := by
  rintro (rfl | ⟨-, hzero⟩ | rfl)
  · rw [h.unaligned.mp hcause] at ha
    cases ha
  · exact hnull hzero
  · exact hmem hcause

theorem map_undefined (h : (Call.map va page perm).Meets F answer F')
    (hva : va.Canonical ∧ va.isAligned = true) (hF : F ⟨va, hva⟩ = none) (hnull : va.val ≠ 0)
    (hmem : answer ≠ .error .outOfMemory) : answer = .ok none ∧
      F' = Function.update F ⟨va, hva⟩ (some (page.pa, perm.toFlags)) := by
  cases answer with
  | ok old =>
    obtain ⟨hva', hF', hold⟩ := h.ok old rfl
    obtain rfl : old = none := hold.trans (congrArg (Option.map _) hF)
    exact ⟨rfl, hF'⟩
  | error cause =>
    exfalso
    rcases h.fails.2 cause rfl with rfl | hplace
    · obtain ⟨hva', hdef⟩ := h.fails.1.mp rfl
      exact hdef hF
    · exact h.hasPlace hva.2 hnull hmem rfl hplace

theorem map_defined (h : (Call.map va page perm).Meets F answer F')
    (hva : va.Canonical ∧ va.isAligned = true) (hF : F ⟨va, hva⟩ ≠ none) :
    answer = .error .duplicated ∧ F' = F := by
  have hanswer := h.fails.1.mpr ⟨hva, hF⟩
  exact ⟨hanswer, h.error _ hanswer⟩

theorem unmap_defined (h : (Call.unmap va).Meets F answer F')
    (hva : va.Canonical ∧ va.isAligned = true) {x : PhysAddr × Flags} (hF : F ⟨va, hva⟩ = some x) :
    answer = .ok (some (.ofAddr x.1)) ∧ F' = Function.update F ⟨va, hva⟩ none := by
  cases answer with
  | ok old =>
    obtain ⟨hva', hF', hold⟩ := h.ok old rfl
    obtain rfl : old = some (.ofAddr x.1) := hold.trans (congrArg (Option.map _) hF)
    exact ⟨rfl, hF'⟩
  | error cause =>
    have hdef := h.fails.1.mp ⟨cause, rfl⟩
    exact absurd ⟨hva, hF ▸ Option.some_ne_none x⟩ hdef

end Meets

end Call

/-! ### One call -/

section
variable {t : PageTable} {va : VirtAddr}

theorem contents_ne_none {m : Memory n} (hva : va.Canonical) :
    (∃ h, t.contents m ⟨va, h⟩ ≠ none) ↔
      va.isAligned = true ∧ m.mapped t.root.number va.page ≠ none := by
  unfold contents
  simp only [ne_eq, Option.map_eq_none_iff]
  exact ⟨fun ⟨h, hm⟩ => ⟨h.2, hm⟩, fun ⟨ha, hm⟩ => ⟨⟨hva, ha⟩, hm⟩⟩

theorem frame?_contents {m : Memory n} (h : g.Trees m) (hr : g.IsRoot t.root.number)
    (base : PageBase) : (m.mapped t.root.number base.1.page).bind Entry.frame? =
      (t.contents m base).map fun x => .ofAddr x.1 := by
  unfold contents
  cases hm : m.mapped t.root.number base.1.page with
  | none => rfl
  | some e =>
    rw [Option.bind_some, Entry.frame?, Entry.addr?, if_pos (h.mapped_present hr hm)]
    rfl

end

end PageTable

/-- The maps of the page tables. -/
def Frames.contents (f : Frames n) (tables : Set PageTable) : tables → PageTable.Contents :=
  fun t => t.1.contents f.memory

namespace PageTable

/-- What a call leaves. If it succeeds one map has changed as it should, and no page that was in use
has got a reference or become a table. If it fails no table has changed, and nothing else either but
that the handle it was given is given back. It lacks memory only if there are not enough free pages
for the tables that may be missing. -/
structure Call.Served (call : Call) (tables : Set PageTable) (t : tables) (f : Frames n)
    (answer : Answer) (f' : Frames n) : Prop where
  separate : f'.Separate tables
  meets : ∃ F, call.Meets (f.contents tables t) answer F ∧
    f'.contents tables = Function.update (f.contents tables) t F
  ok : ∀ old, answer = .ok old → ∀ q, f.count q ≠ 0 → f'.count q = f.count q ∧
    (f'.memory.HoldsTable tables q ↔ f.memory.HoldsTable tables q)
  error : ∀ cause, answer = .error cause →
    SamePages (f.memory.HoldsTable tables) f f' ∧ call.GivesBack f f'
  freePages : answer = .error .outOfMemory → f.freePages < levels - 1

section
variable {t : tables} {call : Call}

theorem Call.Served.of_ok {e : Option Entry} {old : Option FrameRef} {fresh : List Nat}
    (h : PlantedAt tables g f) (hva : call.va.Canonical) (ha : call.va.isAligned = true)
    (h' : Replanted g (Function.update f.memory.mapped t.1.root.number
      (Function.update (f.memory.mapped t.1.root.number) call.va.page e)) g' f')
    (hnew : Enlarged fresh g f g' f')
    (hresult : e.map target = call.result)
    (hold : old = (f.memory.mapped t.1.root.number call.va.page).bind Entry.frame?)
    (hfails : call.FailsFor (call.va.isAligned = true ∧
      f.memory.mapped t.1.root.number call.va.page ≠ none) (.ok old)) :
    call.Served tables t f (.ok old) f' := by
  have hroot : ∀ t' : tables, g.IsRoot t'.1.root.number := fun t' => h.isRoot.mpr t'.2
  have hbase : call.va.Canonical ∧ call.va.isAligned = true := ⟨hva, ha⟩
  refine ⟨(h.replanted h').separate, ⟨Function.update (f.contents tables t) ⟨call.va, hbase⟩
    call.result, ⟨fun old' hold' => ?_, nofun, ?_, ?_⟩, ?_⟩, fun _ _ q hq => ?_, nofun, nofun⟩
  · cases hold'
    exact ⟨hbase, rfl, hold.trans (frame?_contents h.trees (hroot t) ⟨call.va, hbase⟩)⟩
  · exact iff_of_false nofun (by rw [ha]; decide)
  · exact propext (contents_ne_none hva) ▸ hfails
  · funext t'
    by_cases htt : t' = t
    · subst htt
      rw [Function.update_self, ← hresult]
      refine contents_update ⟨call.va, hbase⟩ ?_
      rw [h'.mapped (hroot t'), Function.update_self]
    · have hne : t'.1.root.number ≠ t.1.root.number := fun hnumber =>
        htt (Subtype.ext (congrArg (fun r => PageTable.mk ⟨r⟩) hnumber))
      rw [Function.update_of_ne htt]
      unfold Frames.contents contents
      rw [h'.mapped (hroot t'), Function.update_of_ne hne]
  · rw [(h.replanted h').holdsTable, h.holdsTable]
    exact hnew.in_use hq

theorem Call.Served.of_error {cause : MapError} (h : PlantedAt tables g f)
    (hva : call.va.Canonical) (hhandle : ∀ page, call.handle? = some page → g page.number = none)
    (hgives : call.GivesBack f f')
    (hcause : cause = .unaligned ↔ call.va.isAligned = false)
    (hfree : cause = .outOfMemory → f.freePages < levels - 1)
    (hfails : call.FailsFor (call.va.isAligned = true ∧
      f.memory.mapped t.1.root.number call.va.page ≠ none) (.error cause)) :
    call.Served tables t f (.error cause) f' := by
  have hsame := hgives.samePages h.toPlanted hhandle
  have h' := hsame.replanted h.toPlanted
  refine ⟨(h.replanted h').separate, ⟨f.contents tables t, ⟨nofun, fun _ _ => rfl, ?_, ?_⟩, ?_⟩,
    nofun, fun _ _ => ⟨h.holdsTable ▸ hsame, hgives⟩, fun heq => hfree (Except.error.inj heq)⟩
  · rw [← hcause, Except.error.injEq]
  · exact propext (contents_ne_none hva) ▸ hfails
  · rw [Function.update_eq_self]
    funext t'
    unfold Frames.contents contents
    rw [h'.mapped (h.isRoot.mpr t'.2)]

end

end PageTable

namespace PlantedAt
open PageTable

variable [Addressable n] {E : Halt → Prop} (h : PlantedAt tables g f) (t : tables)
  {va : VirtAddr} (hva : va.Canonical)
include h hva

section
variable {page : FrameRef} {perm : Permission} (h0 : f.count page.number ≠ 0)
  (hpage : g page.number = none)
include h0 hpage

omit h hva hpage in
theorem target_link : (some (Entry.link (pageAt page.number) perm.toFlags)).map target =
    some (page.pa, perm.toFlags) := by
  have hlt : page.number < 2 ^ 40 := lt_of_lt_of_le
    (Nat.lt_of_not_le fun hge => h0 (f.count_of_ge hge)) (Addressable.le (n := n))
  rw [Option.map_some, target, Entry.addr_link hlt, Entry.flags_link hlt]
  rfl

/-- Mapping a page, where another one may be mapped, by the page table or a cursor. -/
theorem install_served {call : Call}
    (hcall : call = .replace va page perm ∨ call = .cursorMap va page perm) :
    Ends (install t.1.pa va page perm) f (call.Served tables t f) E := by
  have hr : g.IsRoot t.1.root.number := h.isRoot.mpr t.2
  have hcva : call.va = va := by rcases hcall with rfl | rfl <;> rfl
  have hresult : call.result = some (page.pa, perm.toFlags) := by
    rcases hcall with rfl | rfl <;> rfl
  refine (install_planted va h.toPlanted hr h0).imp fun answer f' h' => ?_
  subst hcva
  cases answer with
  | ok old =>
    obtain ⟨⟨g', fresh, hmap, hnew, -⟩, hold, ha, -⟩ := h'
    refine .of_ok h hva ha hmap hnew ((target_link h0).trans hresult.symm) hold ?_
    rcases hcall with hcall | hcall <;> rw [hcall] <;> exact nofun
  | error cause =>
    obtain ⟨hgiven, hrefused⟩ := h'
    have hhandle : call.handle? = some page := by
      rcases hcall with hcall | hcall <;> rw [hcall] <;> rfl
    refine .of_error h hva (fun page' hpage' => ?_) ?_ hrefused.unaligned_iff (fun hmem => ?_) ?_
    · cases hhandle.symm.trans hpage'
      exact hpage
    · unfold Call.GivesBack
      rw [hhandle]
      exact hgiven
    · subst hmem
      exact hrefused.freePages_lt
    have hcause : ∀ c, (Except.error cause : Answer) = .error c → call.NoPlace c := fun c hc => by
      cases hc
      exact hrefused.cause
    rcases hcall with hcall | hcall <;> rw [hcall] at hcause ⊢ <;> exact hcause

theorem map_served : Ends ((Call.map va page perm).perform t.1) f
    ((Call.map va page perm).Served tables t f) E := by
  have hr : g.IsRoot t.1.root.number := h.isRoot.mpr t.2
  refine .bind (map_planted h.toPlanted hr h0) fun answer f' h' => .pure ?_
  cases answer with
  | ok old =>
    obtain ⟨⟨g', fresh, hmap, hnew⟩, hnone, ha, -⟩ := h'
    refine .of_ok h hva ha hmap hnew (target_link h0) ?_ ⟨?_, nofun⟩
    · show none = (f.memory.mapped t.1.root.number va.page).bind Entry.frame?
      rw [hnone]
      rfl
    · exact iff_of_false nofun fun hdef => hdef.2 hnone
  | error cause =>
    obtain ⟨hgiven, hcause⟩ := h'
    have hhandle : ∀ page', (Call.map va page perm).handle? = some page' →
        g page'.number = none := by
      rintro _ ⟨⟩
      exact hpage
    by_cases hdup : cause = .duplicated
    · rw [if_pos hdup] at hcause
      subst hdup
      refine .of_error h hva hhandle hgiven (iff_of_false nofun ?_) nofun
        ⟨iff_of_true rfl hcause, fun _ heq => .inl (Except.error.inj heq).symm⟩
      show ¬ va.isAligned = false
      rw [hcause.1]
      decide
    · rw [if_neg hdup] at hcause
      refine .of_error h hva hhandle hgiven hcause.1.unaligned_iff (fun hmem => ?_)
        ⟨iff_of_false ?_ ?_, ?_⟩
      · subst hmem
        exact hcause.1.freePages_lt
      · exact fun heq => hdup (Except.error.inj heq)
      · exact fun hdef => hdef.2 (hcause.2 hdef.1)
      · rintro _ ⟨⟩
        exact .inr hcause.1.cause

end

theorem remove_served {call : Call} (hcall : call = .unmap va ∨ call = .cursorUnmap va) :
    Ends (do return (← remove t.1.pa va).map some) f (call.Served tables t f) E := by
  have hr : g.IsRoot t.1.root.number := h.isRoot.mpr t.2
  have hcva : call.va = va := by rcases hcall with rfl | rfl <;> rfl
  have hresult : call.result = none := by rcases hcall with rfl | rfl <;> rfl
  have hhandle : call.handle? = none := by rcases hcall with rfl | rfl <;> rfl
  have hgives : call.GivesBack f f := by
    unfold Call.GivesBack
    rw [hhandle]
  have hfails : ∀ {defined answer}, ((∃ cause, answer = .error cause) ↔ ¬ defined) →
      (∀ cause, answer = .error cause → cause = .unaligned ∨ cause = .notExist) →
      call.FailsFor defined answer := by
    intro defined answer hiff hcause
    rcases hcall with rfl | rfl <;> exact ⟨hiff, hcause⟩
  refine .bind (remove_planted h.toPlanted hr) fun answer f' h' => .pure ?_
  subst hcva
  cases answer with
  | ok page =>
    obtain ⟨⟨g', hmap, hnew⟩, hold, ha⟩ := h'
    refine .of_ok h hva ha hmap hnew hresult.symm hold.symm (hfails (iff_of_false nofun ?_) nofun)
    refine not_not.mpr ⟨ha, fun hnone => ?_⟩
    rw [hnone] at hold
    cases hold
  | error cause =>
    obtain ⟨rfl, hcause⟩ := h'
    have hnohandle : ∀ page, call.handle? = some page → g page.number = none := fun _ hpage =>
      nomatch hhandle.symm.trans hpage
    have hof : cause = .unaligned ∨ cause = .notExist := hcause.imp And.left And.left
    have hnone : ¬ (call.va.isAligned = true ∧
        f'.memory.mapped t.1.root.number call.va.page ≠ none) := by
      rcases hcause with ⟨-, ha⟩ | ⟨-, -, hnone⟩
      · exact fun hdef => Bool.eq_false_iff.mp ha hdef.1
      · exact fun hdef => hdef.2 hnone
    refine .of_error h hva hnohandle hgives ?_ ?_
      (hfails (iff_of_true ⟨_, rfl⟩ hnone) fun _ heq => Except.error.inj heq ▸ hof)
    · rcases hcause with ⟨rfl, ha⟩ | ⟨rfl, ha, -⟩
      · exact iff_of_true rfl ha
      · refine iff_of_false nofun ?_
        rw [ha]
        decide
    · rcases hof with rfl | rfl <;> exact nofun

end PlantedAt

open PageTable in
/-- **Every call is served**, and none halts. -/
theorem Frames.Separate.perform_ends [Addressable n] {E : Halt → Prop} (h : f.Separate tables)
    (t : tables) {call : Call} (hcall : call.Permitted tables f) :
    Ends (call.perform t.1) f (call.Served tables t f) E := by
  have hp := h.planted
  have hva := hcall.canonical
  have hhandle : ∀ page, call.handle? = some page → f.count page.number ≠ 0 ∧
      f.memory.shape tables page.number = none := fun page hpage => by
    obtain ⟨hcount, hnone⟩ := hcall.handle page hpage
    rw [hp.holdsTable] at hnone
    exact ⟨hcount, not_not.mp hnone⟩
  cases call with
  | map va page perm =>
    obtain ⟨h0, hpage⟩ := hhandle page rfl
    exact hp.map_served t hva h0 hpage
  | replace va page perm =>
    obtain ⟨h0, hpage⟩ := hhandle page rfl
    exact hp.install_served t hva h0 hpage (.inl rfl)
  | unmap va => exact hp.remove_served t hva (.inl rfl)
  | cursorMap va page perm =>
    obtain ⟨h0, hpage⟩ := hhandle page rfl
    exact hp.install_served t hva h0 hpage (.inr rfl)
  | cursorUnmap va => exact hp.remove_served t hva (.inr rfl)

/-- **A walk finds what the map says**, at every canonical address. -/
theorem Frames.Separate.walk_eq [Addressable n] (h : f.Separate tables) (t : tables)
    {va : VirtAddr} (hva : va.Canonical) : ∃ e, t.1.walk f.memory va = .ok e ∧
      e.map PageTable.target = f.contents tables t (va.base hva) := by
  have hp := h.planted
  refine ⟨_, hp.trees.walk_eq t.1 va (hp.isRoot.mpr t.2), ?_⟩
  show _ = (f.memory.mapped t.1.root.number va.pageDown.page).map PageTable.target
  rw [va.page_pageDown]

/-- What leaves the tables alone changes no map, and the tables are separate still. -/
theorem Frames.Separate.samePages (h : f.Separate tables)
    (hsame : SamePages (f.memory.HoldsTable tables) f f') :
    f'.Separate tables ∧ f'.contents tables = f.contents tables := by
  have hp := h.planted
  rw [hp.holdsTable] at hsame
  have h' := hsame.replanted hp.toPlanted
  refine ⟨(hp.replanted h').separate, ?_⟩
  funext t
  unfold contents PageTable.contents
  rw [h'.mapped (hp.isRoot.mpr t.2)]

/-! ### Any number of calls -/

namespace PageTable

/-- From `f` to `f'`, the calls of the list were made one after the other, with these answers.
Between the calls, whatever is no table may have changed. -/
inductive Run (tables : Set PageTable) :
    Frames n → List (tables × Call × Answer) → Frames n → Prop
  | nil (f : Frames n) : Run tables f [] f
  | call {f f₁ f' : Frames n} {t : tables} {call : Call} {answer : Answer}
      {l : List (tables × Call × Answer)} (hcall : call.Permitted tables f)
      (hperform : call.perform t.1 f = .ok answer f₁) (hrun : Run tables f₁ l f') :
      Run tables f ((t, call, answer) :: l) f'
  | other {f f₁ f' : Frames n} {l : List (tables × Call × Answer)}
      (hsame : SamePages (f.memory.HoldsTable tables) f f₁) (hrun : Run tables f₁ l f') :
      Run tables f l f'

/-- The calls of the list lead from the maps `A` to `A'`. -/
inductive MapRun (tables : Set PageTable) :
    (tables → Contents) → List (tables × Call × Answer) → (tables → Contents) → Prop
  | nil (A : tables → Contents) : MapRun tables A [] A
  | call {A A' : tables → Contents} {t : tables} {call : Call} {answer : Answer} {F : Contents}
      {l : List (tables × Call × Answer)} (hmeets : call.Meets (A t) answer F)
      (hrun : MapRun tables (Function.update A t F) l A') :
      MapRun tables A ((t, call, answer) :: l) A'

/-- The calls were calls of partial maps, walks find what these say, and the next call is served. -/
structure RefinesMaps (tables : Set PageTable) (f : Frames n) (l : List (tables × Call × Answer))
    (f' : Frames n) : Prop where
  maps : MapRun tables (f.contents tables) l (f'.contents tables)
  walks : ∀ (t : tables) (va : VirtAddr) (hva : va.Canonical), ∃ e,
    t.1.walk f'.memory va = .ok e ∧ e.map target = f'.contents tables t (va.base hva)
  serves : ∀ (t : tables) (call : Call), call.Permitted tables f' →
    ∃ answer f'', call.perform t.1 f' = .ok answer f'' ∧ call.Served tables t f' answer f''

variable [Addressable n] {l : List (tables × Call × Answer)}

theorem Run.separate (h : f.Separate tables) (hrun : Run tables f l f') : f'.Separate tables := by
  induction hrun with
  | nil f => exact h
  | @call _ _ _ t _ _ _ hcall hperform _ ih =>
    have hserved := (h.perform_ends t hcall (E := fun _ => True)).eq_ok hperform
    exact ih hserved.separate
  | other hsame _ ih => exact ih (h.samePages hsame).1

theorem Run.maps (h : f.Separate tables) (hrun : Run tables f l f') :
    MapRun tables (f.contents tables) l (f'.contents tables) := by
  induction hrun with
  | nil f => exact .nil _
  | @call _ _ _ t _ _ _ hcall hperform _ ih =>
    have hserved := (h.perform_ends t hcall (E := fun _ => True)).eq_ok hperform
    obtain ⟨F, hmeets, hcontents⟩ := hserved.meets
    have hrest := ih hserved.separate
    rw [hcontents] at hrest
    exact .call hmeets hrest
  | other hsame _ ih =>
    obtain ⟨hsep, hcontents⟩ := h.samePages hsame
    exact hcontents ▸ ih hsep

/-- **Page tables refine finite maps.** -/
theorem Run.refines_maps (h : f.Separate tables) (hrun : Run tables f l f') :
    RefinesMaps tables f l f' where
  maps := hrun.maps h
  walks t _ hva := (hrun.separate h).walk_eq t hva
  serves t _ hcall := ((hrun.separate h).perform_ends t hcall).ok

/-- In `f` the page table `t` is new, and there is a handle to `page`, which holds no table. -/
structure NewTable (t : PageTable) (page : FrameRef) (f : Frames n) : Prop where
  separate : f.Separate {t}
  mapped : f.memory.mapped t.root.number = fun _ => none
  root : ∀ {q p}, f.memory.TableAt {t} q p → p.level = 3
  in_use : f.count page.number ≠ 0
  not_table : ¬ f.memory.HoldsTable {t} page.number

theorem exists_newTable : ∃ (t : PageTable) (f : Frames physicalPages) (page : FrameRef),
    NewTable t page f ∧ levels - 1 ≤ f.freePages := by
  have hfree := Frames.freePages_fresh
  have hlevels : levels = 4 := rfl
  obtain ⟨t, c, g, f, hacc, hmap, -, -, -, hfree'⟩ :=
    exists_new (accounted_fresh physicalPages) (by omega)
  have hroot : ∀ {r}, g.IsRoot r ↔ (⟨⟨r⟩⟩ : PageTable) ∈ ({t} : Set PageTable) := by
    intro r
    by_cases hr : r = t.root.number
    · subst hr
      exact iff_of_true hmap.isRoot rfl
    · refine iff_of_false (fun hroot => ?_) fun hmem => hr (congrArg (·.root.number) hmem)
      cases (hmap.kept.isRoot hr).mp hroot
  have hplanted : PlantedAt {t} g f := ⟨hacc.planted, hroot⟩
  refine ⟨t, f, ⟨c⟩, ⟨hplanted.separate, hmap.mapped, fun {q p} hq => ?_,
    hacc.count_handle List.mem_cons_self, ?_⟩, by omega⟩
  · rw [hplanted.tableAt_iff] at hq
    have hr : p.root = t.root.number :=
      congrArg (·.root.number) (hroot.mp (hplanted.trees.isRoot hq))
    obtain ⟨r, l, i⟩ := p
    obtain rfl : r = t.root.number := hr
    rcases hmap.tables hq with hnone | hl | ⟨v, -, hv⟩
    · cases hnone
    · exact hl
    · exact absurd rfl hv
  · rw [hplanted.holdsTable]
    exact not_not.mpr (hacc.handle c List.mem_cons_self).2

namespace NewTable

variable {t : PageTable} {page : FrameRef} {f : Frames physicalPages}

theorem lt (h : NewTable t page f) : page.number < physicalPages :=
  Nat.lt_of_not_le fun hge => h.in_use (f.count_of_ge hge)

theorem ofAddr_pa (h : NewTable t page f) : FrameRef.ofAddr page.pa = page := by
  have hlt : page.number < 2 ^ 52 := lt_trans h.lt (by decide)
  rw [FrameRef.ofAddr, FrameRef.pa_eq_pageAt, pageAt_pageNumber hlt]

theorem samePages (h : NewTable t page f) {f' : Frames physicalPages}
    (hsame : SamePages (f.memory.HoldsTable {t}) f f') (hused : f'.count page.number ≠ 0) :
    NewTable t page f' := by
  have hp := h.separate.planted
  have hholds := hp.holdsTable
  rw [hholds] at hsame
  have hreplanted := hsame.replanted hp.toPlanted
  have hp' := hp.replanted hreplanted
  refine ⟨hp'.separate, (hreplanted.mapped (hp.isRoot.mpr rfl)).trans h.mapped, fun hq => ?_, hused,
    ?_⟩
  · exact h.root (hp.tableAt_iff.mpr (hp'.tableAt_iff.mp hq))
  · rw [hp'.holdsTable, ← hholds]
    exact h.not_table

theorem share (h : NewTable t page f) :
    NewTable t page (f.setCount page.number (f.count page.number + 1) h.lt) := by
  have hcount := f.count_setCount (c := f.count page.number + 1) h.lt
  refine h.samePages ⟨fun q hq => ?_, fun _ _ => rfl⟩ ?_
  · rw [hcount, if_neg]
    rintro rfl
    exact h.not_table hq
  · rw [hcount, if_pos rfl]
    exact Nat.succ_ne_zero _

theorem permitted (h : NewTable t page f) {va : VirtAddr} (hva : va.Canonical)
    (perm : Permission) : (Call.map va page perm).Permitted {t} f := by
  refine ⟨hva, ?_⟩
  rintro _ ⟨⟩
  exact ⟨h.in_use, h.not_table⟩

end NewTable

/-- A page is mapped in a new page table, cannot be mapped there a second time, and is removed. -/
theorem refines_maps_one_page : ∃ (t : PageTable) (f f' : Frames physicalPages) (page : FrameRef)
    (l : List (({t} : Set PageTable) × Call × Answer)), l =
      [(⟨t, rfl⟩, .map (VirtAddr.ofPage 1) page .userData, .ok none),
        (⟨t, rfl⟩, .map (VirtAddr.ofPage 1) page .userData, .error .duplicated),
        (⟨t, rfl⟩, .unmap (VirtAddr.ofPage 1), .ok (some page))] ∧
    f.Separate {t} ∧ 2 ≤ f.count page.number ∧ Run {t} f l f' ∧ RefinesMaps {t} f l f' := by
  have hva : (VirtAddr.ofPage 1).Canonical ∧ (VirtAddr.ofPage 1).isAligned = true := by
    rw [VirtAddr.canonical_iff]
    decide
  obtain ⟨t, f, page, hnew, hfree⟩ := exists_newTable
  have htwo : 2 ≤ (f.setCount page.number (f.count page.number + 1) hnew.lt).count page.number := by
    rw [f.count_setCount, if_pos rfl]
    exact Nat.succ_le_succ (Nat.pos_of_ne_zero hnew.in_use)
  have hfree₀ := f.freePages_eq_setCount (c := f.count page.number + 1) hnew.lt hnew.in_use
    (Nat.succ_ne_zero _)
  rw [← hfree₀] at hfree
  replace hnew := hnew.share
  generalize f.setCount page.number (f.count page.number + 1) _ = f₀ at hnew htwo hfree
  -- the page is mapped
  have hcall₁ := hnew.permitted hva.1 .userData
  obtain ⟨answer₁, f₁, hperform₁, hserved₁⟩ := (hnew.separate.perform_ends ⟨t, rfl⟩ hcall₁).ok
  obtain ⟨F₁, hmeets₁, hF₁⟩ := hserved₁.meets
  have hundefined : f₀.contents {t} ⟨t, rfl⟩ ⟨VirtAddr.ofPage 1, hva⟩ = none := by
    unfold Frames.contents contents
    rw [hnew.mapped]
    rfl
  obtain ⟨rfl, rfl⟩ := hmeets₁.map_undefined hva hundefined (by decide) fun hmem =>
    Nat.not_lt.mpr hfree (hserved₁.freePages hmem)
  have hdefined : f₁.contents {t} ⟨t, rfl⟩ ⟨VirtAddr.ofPage 1, hva⟩ =
      some (page.pa, Permission.userData.toFlags) := by
    rw [hF₁, Function.update_self, Function.update_self]
  obtain ⟨hcount₁, htable₁⟩ := hserved₁.ok none rfl page.number hnew.in_use
  -- it cannot be mapped there again
  have hcall₂ : (Call.map (VirtAddr.ofPage 1) page .userData).Permitted {t} f₁ := by
    refine ⟨hva.1, ?_⟩
    rintro _ ⟨⟩
    exact ⟨hcount₁ ▸ hnew.in_use, mt htable₁.mp hnew.not_table⟩
  obtain ⟨answer₂, f₂, hperform₂, hserved₂⟩ :=
    (hserved₁.separate.perform_ends ⟨t, rfl⟩ hcall₂).ok
  obtain ⟨F₂, hmeets₂, hF₂⟩ := hserved₂.meets
  obtain ⟨rfl, rfl⟩ := hmeets₂.map_defined hva (hdefined ▸ Option.some_ne_none _)
  rw [Function.update_eq_self] at hF₂
  -- it is removed
  have hcall₃ : (Call.unmap (VirtAddr.ofPage 1)).Permitted {t} f₂ := ⟨hva.1, nofun⟩
  obtain ⟨answer₃, f₃, hperform₃, hserved₃⟩ :=
    (hserved₂.separate.perform_ends ⟨t, rfl⟩ hcall₃).ok
  obtain ⟨F₃, hmeets₃, -⟩ := hserved₃.meets
  obtain ⟨rfl, -⟩ := hmeets₃.unmap_defined hva (hF₂ ▸ hdefined)
  rw [hnew.ofAddr_pa] at hperform₃
  have hrun := Run.call hcall₁ hperform₁ (.call hcall₂ hperform₂ (.call hcall₃ hperform₃ (.nil f₃)))
  exact ⟨t, f₀, f₃, page, _, rfl, hnew.separate, htwo, hrun, hrun.refines_maps hnew.separate⟩

end PageTable
end PagedKernel
