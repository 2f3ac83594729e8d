import PagedKernel.Proofs.Spaces.FiniteMaps

/-!
# Page tables made by their own calls

A page table that was made empty, and has changed by nothing but its calls since, is plain: each of
its leaves is what such a call writes, the address of a page and the flags of a permission, and none
is for the null page. A permission says less than flags do, but a plain leaf can be made again from
what it permits.

Key definitions: `PageTable.Plain`, `PageTable.Built`.
Key theorems: `PageTable.Call.plain_ends`, `PageTable.Built.plain`.
-/

namespace PagedKernel

variable {n : Nat} {f f' : Frames n} {g : Shape} {m m' : Memory n} {E : Halt → Prop}

theorem VirtAddr.page_ne_zero {va : VirtAddr} (hva : va.Canonical) (ha : va.isAligned = true)
    (h0 : va.val ≠ 0) : va.page ≠ 0 := by
  intro hpage
  have hnull : (VirtAddr.mk 0).Canonical ∧ (VirtAddr.mk 0).isAligned = true := by
    rw [canonical_iff]
    decide
  have hnumber : va.page = (VirtAddr.mk 0).page := hpage.trans (by decide)
  have heq : (⟨va, hva, ha⟩ : PageBase) = ⟨⟨0⟩, hnull⟩ := PageBase.page_injective hnumber
  exact h0 (congrArg (·.1.val) heq)

namespace PageTable

/-- Every leaf is made of the address of a page and the flags of a permission, and the null page is
not mapped. -/
structure Plain (t : PageTable) (m : Memory n) : Prop where
  leaf : ∀ {v e}, m.mapped t.root.number v = some e →
    ∃ (c : Nat) (perm : Permission), c < 2 ^ 40 ∧ e = .link (pageAt c) perm.toFlags
  null : m.mapped t.root.number 0 = none

namespace Plain

variable {t : PageTable} {va : VirtAddr} {c v : Nat}

theorem congr (h : t.Plain m) (hm : m'.mapped t.root.number = m.mapped t.root.number) :
    t.Plain m' where
  leaf he := h.leaf (congrFun hm _ ▸ he)
  null := (congrFun hm 0).trans h.null

theorem install (h : t.Plain m) (hva : va.Canonical) (ha : va.isAligned = true) (h0 : va.val ≠ 0)
    (perm : Permission) (hc : c < 2 ^ 40)
    (hm : m'.mapped t.root.number = Function.update (m.mapped t.root.number) va.page
      (some (.link (pageAt c) perm.toFlags))) : t.Plain m' where
  leaf {v e} he := by
    rw [hm] at he
    by_cases hv : v = va.page
    · rw [hv, Function.update_self] at he
      exact ⟨c, perm, hc, (Option.some.inj he).symm⟩
    · rw [Function.update_of_ne hv] at he
      exact h.leaf he
  null := by
    rw [hm, Function.update_of_ne (VirtAddr.page_ne_zero hva ha h0).symm]
    exact h.null

theorem remove (h : t.Plain m)
    (hm : m'.mapped t.root.number = Function.update (m.mapped t.root.number) v none) :
    t.Plain m' where
  leaf {w e} he := by
    rw [hm] at he
    by_cases hw : w = v
    · rw [hw, Function.update_self] at he
      cases he
    · rw [Function.update_of_ne hw] at he
      exact h.leaf he
  null := by
    rw [hm]
    by_cases hv : 0 = v
    · rw [hv, Function.update_self]
    · rw [Function.update_of_ne hv]
      exact h.null

end Plain

section
variable [Addressable n] {t : PageTable}

/-- **A call keeps a page table plain**, whether it succeeds or not. -/
theorem Call.plain_ends {call : Call} (h : PlantedAt {t} g f) (hcall : call.Permitted {t} f)
    (hp : t.Plain f.memory) :
    Ends (call.perform t) f (fun _ f' => t.Plain f'.memory) E := by
  have hr : g.IsRoot t.root.number := h.isRoot.mpr rfl
  have hva := hcall.canonical
  have hhandle : ∀ page, call.handle? = some page →
      f.count page.number ≠ 0 ∧ g page.number = none ∧ page.number < 2 ^ 40 := fun page hpage => by
    obtain ⟨h0, hnone⟩ := hcall.handle page hpage
    have hlt : page.number < n := Nat.lt_of_not_le fun hge => h0 (f.count_of_ge hge)
    rw [h.holdsTable] at hnone
    exact ⟨h0, not_not.mp hnone, lt_of_lt_of_le hlt (Addressable.le (n := n))⟩
  have hmapped : ∀ {g'} {f' : Frames n} {F},
      Replanted g (Function.update f.memory.mapped t.root.number F) g' f' →
      f'.memory.mapped t.root.number = F := fun h' => by
    rw [h'.mapped hr, Function.update_self]
  have hsame : ∀ {f' : Frames n}, SamePages (g · ≠ none) f f' → t.Plain f'.memory := fun hsame =>
    hp.congr ((hsame.replanted h.toPlanted).mapped hr)
  have hinstall : ∀ {va : VirtAddr} {page : FrameRef} {perm : Permission}, va.Canonical →
      f.count page.number ≠ 0 ∧ g page.number = none ∧ page.number < 2 ^ 40 →
      Ends (PageTable.install t.pa va page perm) f (fun _ f' => t.Plain f'.memory) E := by
    rintro va page perm hva ⟨h0, hnone, hlt⟩
    refine (install_planted va h.toPlanted hr h0).imp fun answer f' h' => ?_
    cases answer with
    | ok old =>
      obtain ⟨⟨g', -, hmap, -⟩, -, ha, hval⟩ := h'
      exact hp.install hva ha hval perm hlt (hmapped hmap)
    | error cause => exact hsame (h.givenBack hnone h'.1)
  have hremove : ∀ {va : VirtAddr},
      Ends (PageTable.remove t.pa va) f (fun _ f' => t.Plain f'.memory) E := by
    intro va
    refine (remove_planted h.toPlanted hr).imp fun answer f' h' => ?_
    cases answer with
    | ok page =>
      obtain ⟨⟨g', hmap, -⟩, -⟩ := h'
      exact hp.remove (hmapped hmap)
    | error cause => exact h'.1 ▸ hp
  cases call with
  | map va page perm =>
    have hva : va.Canonical := hva
    obtain ⟨h0, hnone, hlt⟩ := hhandle page rfl
    refine .bind (map_planted h.toPlanted hr h0) fun answer f' h' => .pure ?_
    cases answer with
    | ok _ =>
      obtain ⟨⟨g', -, hmap, -⟩, -, ha, hval⟩ := h'
      exact hp.install hva ha hval perm hlt (hmapped hmap)
    | error cause => exact hsame (h.givenBack hnone h'.1)
  | replace va page perm => exact hinstall hva (hhandle page rfl)
  | unmap va => exact .bind hremove fun _ _ h' => .pure h'
  | cursorMap va page perm => exact hinstall hva (hhandle page rfl)
  | cursorUnmap va => exact .bind hremove fun _ _ h' => .pure h'

omit [Addressable n] in
/-- A new page table is one of its own, and maps nothing. -/
theorem new?_separate : Ends new? f (fun res f' => ∀ t, res = some t →
    f'.Separate {t} ∧ f'.memory.mapped t.root.number = fun _ => none) E := by
  unfold new?
  refine .bind .allocFilled fun found f' h' => .pure fun t ht => ?_
  obtain ⟨ref, rfl, rfl⟩ := Option.map_eq_some_iff.mp ht
  have h' : Frames.HandedOutFull 0 f ref.number f' := h'
  have hv : f'.memory.Vacant ref.number := fun s hs => by
    rw [Memory.slot_of_zeros hs h'.fill]
    exact Entry.page?_empty
  have hempty : Shape.Trees (fun _ => none) f'.memory := ⟨nofun, nofun, nofun, nofun, nofun⟩
  have htrees := hempty.newRoot rfl h'.lt hv
  have hr : Shape.IsRoot (Function.update (fun _ => none) ref.number (some ⟨ref.number, 3, 0⟩))
      ref.number := Function.update_self ..
  refine ⟨PlantedAt.separate ⟨⟨htrees, fun {q p} hq => ?_⟩, fun {r} => ?_⟩,
    htrees.mapped_of_vacant hr hv⟩
  · rcases Shape.placed_cases hq with ⟨rfl, -⟩ | ⟨-, hq⟩
    · rw [h'.count, if_pos rfl]
    · cases hq
  · constructor
    · intro hroot
      rcases Shape.placed_cases hroot with ⟨rfl, -⟩ | ⟨-, hq⟩
      · rfl
      · cases hq
    · intro hmem
      obtain rfl : r = ref.number := congrArg (·.root.number) hmem
      exact hr

/-- In `f`, the page table has been made by its own calls: it was made empty, and since then calls
of it were made, with anything between them that leaves its tables alone. -/
inductive Built (t : PageTable) : Frames n → Prop
  | new {f f' : Frames n} (hnew : new? f = .ok (some t) f') : Built t f'
  | call {f f' : Frames n} {call : Call} {answer : Answer} (hbuilt : Built t f)
      (hcall : call.Permitted {t} f) (hperform : call.perform t f = .ok answer f') : Built t f'
  | other {f f' : Frames n} (hbuilt : Built t f)
      (hsame : SamePages (f.memory.HoldsTable {t}) f f') : Built t f'

theorem Built.separate_plain (h : t.Built f) : f.Separate {t} ∧ t.Plain f.memory := by
  induction h with
  | new hnew =>
    obtain ⟨hsep, hempty⟩ := (new?_separate (E := fun _ => True)).eq_ok hnew t rfl
    refine ⟨hsep, fun he => ?_, congrFun hempty 0⟩
    cases (congrFun hempty _).symm.trans he
  | @call f _ call _ _ hcall hperform ih =>
    obtain ⟨hsep, hp⟩ := ih
    have hserved := (hsep.perform_ends ⟨t, rfl⟩ hcall (E := fun _ => True)).eq_ok hperform
    have hplain : Ends (call.perform t) f _ fun _ => True :=
      Call.plain_ends hsep.planted hcall hp
    exact ⟨hserved.separate, hplain.eq_ok hperform⟩
  | other _ hsame ih =>
    obtain ⟨hsep, hp⟩ := ih
    have hplanted := hsep.planted
    refine ⟨(hsep.samePages hsame).1, hp.congr ?_⟩
    rw [hplanted.holdsTable] at hsame
    exact (hsame.replanted hplanted.toPlanted).mapped (hplanted.isRoot.mpr rfl)

/-- **A page table that its own calls have made is plain.** -/
theorem Built.plain (h : t.Built f) : t.Plain f.memory :=
  h.separate_plain.2

end

end PageTable
end PagedKernel
