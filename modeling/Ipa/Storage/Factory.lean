import Ipa.Lib.Run
import Mathlib.Logic.Function.Basic

/-!
# The clients that the factory creates

A process has at most one client of each backend at a time.  `closeStores` closes those of the cache
and of the content store, in this order, and forgets all of them; a close that raises ends the call,
and the references are dropped all the same.

* `no_leak_iff`: every client is installed or has been closed once, after every call of a run, if and
  only if no close of a cache raises while a content store is installed.
* `content_leaked`: three calls after which a content store is neither installed nor closed.
-/

namespace Ipa

open Transition

/-- The kinds of clients. -/
inductive StoreKind
  | blob | content | cache
deriving DecidableEq

/-- A client: its backend and the number of the clients created before it. -/
structure StoreClient where
  kind : StoreKind
  number : ℕ
deriving DecidableEq

/-- The singletons, the clients that were ever created and the closes that were attempted. -/
structure Factory where
  installed : StoreKind → Option ℕ
  created : List StoreClient
  closed : List StoreClient

/-- Calls of the factory; a call that closes clients comes with what their closes raise. -/
inductive FactoryCall (X : Type*)
  | getBlobStore
  | getContentStore
  | getCacheStore
  | closeStores (cacheExc contentExc : Option X)

namespace Factory

variable {X : Type*}

/-- The state of the module before the first call. -/
def init : Factory := ⟨fun _ => none, [], []⟩

/-- The singleton of a backend, created on first use. -/
def getStore (kind : StoreKind) (s : Factory) : Factory × StoreClient :=
  match s.installed kind with
  | some number => (s, ⟨kind, number⟩)
  | none =>
    let client := ⟨kind, s.created.length⟩
    (⟨Function.update s.installed kind (some client.number), s.created ++ [client], s.closed⟩, client)

/-- `get_blob_store`. -/
def getBlobStore (s : Factory) : Factory × StoreClient := s.getStore .blob

/-- `get_content_store`. -/
def getContentStore (s : Factory) : Factory × StoreClient := s.getStore .content

/-- `get_cache_store`. -/
def getCacheStore (s : Factory) : Factory × StoreClient := s.getStore .cache

/-- Close the singleton of a backend, if there is one. -/
def closeStore (kind : StoreKind) (s : Factory) : Factory :=
  match s.installed kind with
  | some number => { s with closed := s.closed ++ [⟨kind, number⟩] }
  | none => s

/-- Forget the instances. -/
def forget (s : Factory) : Factory := { s with installed := fun _ => none }

/-- `close_stores`. -/
def closeStores (cacheExc contentExc : Option X) (s : Factory) : Factory × Except X Unit :=
  let s₁ := s.closeStore .cache
  match s.installed .cache, cacheExc with
  | some _, some exc => (s₁.forget, .error exc)
  | _, _ =>
    let s₂ := s₁.closeStore .content
    match s₁.installed .content, contentExc with
    | some _, some exc => (s₂.forget, .error exc)
    | _, _ => (s₂.forget, .ok ())

/-- The state after a call. -/
def exec (s : Factory) : FactoryCall X → Factory
  | .getBlobStore => s.getBlobStore.1
  | .getContentStore => s.getContentStore.1
  | .getCacheStore => s.getCacheStore.1
  | .closeStores cacheExc contentExc => (s.closeStores cacheExc contentExc).1

/-- A call leads from one state to the next. -/
def Step (s : Factory) (call : FactoryCall X) (s' : Factory) : Prop := s' = s.exec call

/-! ## Leaks and the condition -/

/-- The client is the singleton of its backend. -/
def Installed (s : Factory) (client : StoreClient) : Prop :=
  s.installed client.kind = some client.number

instance (s : Factory) (client : StoreClient) : Decidable (s.Installed client) :=
  inferInstanceAs (Decidable (_ = _))

/-- Every client that needs a close is installed and not closed, or closed once and not installed. -/
def NoLeak (s : Factory) : Prop :=
  ∀ client ∈ s.created, client.kind ≠ .blob →
    (s.Installed client ∧ s.closed.count client = 0) ∨
    (¬ s.Installed client ∧ s.closed.count client = 1)

/-- The close of a cache does not raise while a content store is installed. -/
def ClosesAll (s : Factory) : FactoryCall X → Prop
  | .closeStores (some _) _ => s.installed .cache = none ∨ s.installed .content = none
  | _ => True

/-! ## What a call does -/

variable {s s' : Factory} {kind : StoreKind} {client : StoreClient}

/-- The singletons and the closed clients have been created, and the next number is new. -/
structure Inv (s : Factory) : Prop where
  installed_created : ∀ client, s.Installed client → client ∈ s.created
  closed_created : ∀ client ∈ s.closed, client ∈ s.created
  number_lt : ∀ client ∈ s.created, client.number < s.created.length

@[simp]
theorem installed_closeStore (kind : StoreKind) (s : Factory) :
    (s.closeStore kind).installed = s.installed := by
  unfold closeStore
  split <;> rfl

@[simp]
theorem created_closeStore (kind : StoreKind) (s : Factory) :
    (s.closeStore kind).created = s.created := by
  unfold closeStore
  split <;> rfl

/-- A close is attempted on the singleton of its backend and on no other client. -/
theorem count_closeStore (kind : StoreKind) (s : Factory) (client : StoreClient) :
    (s.closeStore kind).closed.count client =
      s.closed.count client + if client.kind = kind ∧ s.Installed client then 1 else 0 := by
  obtain ⟨kind', number⟩ := client
  unfold closeStore Installed
  cases h : s.installed kind with
  | none =>
    rw [if_neg (by rintro ⟨rfl, hinstalled⟩; simp_all)]
    rfl
  | some number' =>
    rw [List.count_append, List.count_singleton]
    by_cases hk : kind' = kind
    · subst hk
      by_cases hn : number' = number <;> simp [h, hn]
    · simp [hk, Ne.symm hk]

theorem mem_closed_closeStore (h : client ∈ (s.closeStore kind).closed) :
    client ∈ s.closed ∨ s.Installed client := by
  rw [← List.count_pos_iff, count_closeStore] at h
  by_cases hinstalled : s.Installed client
  · exact .inr hinstalled
  · rw [if_neg fun hk => hinstalled hk.2, Nat.add_zero, List.count_pos_iff] at h
    exact .inl h

/-- A call that closes clients closes the cache and, if that does not raise, the content store. -/
theorem closeStores_eq (cacheExc contentExc : Option X) (s : Factory) :
    (s.closeStores cacheExc contentExc).1 =
      if (s.installed .cache).isSome ∧ cacheExc.isSome then (s.closeStore .cache).forget
      else ((s.closeStore .cache).closeStore .content).forget := by
  have hcontent : ∀ s' : Factory,
      (match (s.closeStore .cache).installed .content, contentExc with
        | some _, some exc => (s'.forget, Except.error exc)
        | _, _ => (s'.forget, .ok ())).1 = s'.forget := by
    intro s'
    split <;> rfl
  unfold closeStores
  cases hcache : s.installed .cache with
  | none => exact hcontent _
  | some n =>
    cases cacheExc with
    | none => exact hcontent _
    | some exc => rfl

/-! ## One call -/

theorem inv_init : Inv init := ⟨by simp [Installed, init], by simp [init], by simp [init]⟩

theorem noLeak_init : NoLeak init := by
  intro client hclient
  cases hclient

theorem inv_closeStore (h : Inv s) (kind : StoreKind) : Inv (s.closeStore kind) where
  installed_created client hinstalled := by
    rw [created_closeStore]
    apply h.installed_created
    rwa [Installed, installed_closeStore] at hinstalled
  closed_created client hclosed := by
    rw [created_closeStore]
    exact (mem_closed_closeStore hclosed).elim (h.closed_created client) (h.installed_created client)
  number_lt := by
    rw [created_closeStore]
    exact h.number_lt

theorem inv_forget (h : Inv s) : Inv s.forget :=
  ⟨fun _ hinstalled => (by cases hinstalled), h.closed_created, h.number_lt⟩

/-- What the first use of a backend changes. -/
theorem installed_getStore (hnone : s.installed kind = none) :
    (s.getStore kind).1.Installed client ↔ s.Installed client ∨ client = ⟨kind, s.created.length⟩ := by
  obtain ⟨kind', number⟩ := client
  unfold getStore Installed
  rw [hnone]
  by_cases hk : kind' = kind
  · subst hk
    simp [hnone, eq_comm]
  · simp [hk]

theorem inv_getStore (h : Inv s) (kind : StoreKind) : Inv (s.getStore kind).1 := by
  cases hnone : s.installed kind with
  | some number => rwa [getStore, hnone]
  | none =>
    have hcreated : (s.getStore kind).1.created = s.created ++ [⟨kind, s.created.length⟩] := by
      rw [getStore, hnone]
    refine ⟨fun client hinstalled => ?_, fun client hclosed => ?_, fun client hclient => ?_⟩
    · rw [hcreated, List.mem_append, List.mem_singleton]
      exact ((installed_getStore hnone).1 hinstalled).imp_left (h.installed_created client)
    · rw [getStore, hnone] at hclosed
      rw [hcreated]
      exact List.mem_append_left _ (h.closed_created client hclosed)
    · rw [hcreated, List.mem_append, List.mem_singleton] at hclient
      rw [hcreated, List.length_append, List.length_singleton]
      rcases hclient with hold | rfl
      · have := h.number_lt client hold
        omega
      · exact Nat.lt_succ_self _

theorem inv_step {call : FactoryCall X} (h : Inv s) (hstep : Step s call s') : Inv s' := by
  obtain rfl := hstep
  cases call with
  | getBlobStore => exact inv_getStore h .blob
  | getContentStore => exact inv_getStore h .content
  | getCacheStore => exact inv_getStore h .cache
  | closeStores cacheExc contentExc =>
    rw [exec, closeStores_eq]
    split_ifs
    · exact inv_forget (inv_closeStore h .cache)
    · exact inv_forget (inv_closeStore (inv_closeStore h .cache) .content)

theorem noLeak_getStore (hinv : Inv s) (h : NoLeak s) (kind : StoreKind) : NoLeak (s.getStore kind).1 := by
  cases hnone : s.installed kind with
  | some number => rwa [getStore, hnone]
  | none =>
    have hclosed : (s.getStore kind).1.closed = s.closed := by rw [getStore, hnone]
    intro client hclient hkind
    rw [getStore, hnone, List.mem_append, List.mem_singleton] at hclient
    rw [installed_getStore hnone, hclosed]
    by_cases hnew : client = ⟨kind, s.created.length⟩
    · refine .inl ⟨.inr hnew, List.count_eq_zero.2 fun hmem => ?_⟩
      have hlt := hinv.number_lt client (hinv.closed_created client hmem)
      rw [hnew] at hlt
      exact Nat.lt_irrefl _ hlt
    · have hold := h client (hclient.resolve_right hnew) hkind
      simpa [hnew] using hold

/-- A call that closes all clients leaves every client closed once. -/
theorem noLeak_closeAll (h : NoLeak s) : NoLeak ((s.closeStore .cache).closeStore .content).forget := by
  intro client hclient hkind
  have hclient' : client ∈ s.created := by simpa [forget] using hclient
  refine .inr ⟨by simp [Installed, forget], ?_⟩
  have hcount := h client hclient' hkind
  rw [forget, count_closeStore, count_closeStore]
  simp only [Installed, installed_closeStore] at hcount ⊢
  obtain ⟨kind, number⟩ := client
  cases kind with
  | blob => exact absurd rfl hkind
  | content => by_cases hinstalled : s.installed .content = some number <;> simp_all
  | cache => by_cases hinstalled : s.installed .cache = some number <;> simp_all

/-- After a close of the cache that raises, the content store is neither installed nor closed. -/
theorem content_lost (hinv : Inv s) (h : NoLeak s) {number : ℕ}
    (hcontent : s.installed .content = some number) : ¬ NoLeak (s.closeStore .cache).forget := by
  intro hleft
  have hmem : (⟨.content, number⟩ : StoreClient) ∈ s.created := hinv.installed_created _ hcontent
  have hopen : s.closed.count ⟨.content, number⟩ = 0 := by
    rcases h ⟨.content, number⟩ hmem (by simp) with ⟨-, hzero⟩ | ⟨hnot, -⟩
    · exact hzero
    · exact absurd hcontent hnot
  have hcount := hleft ⟨.content, number⟩ (by simpa [forget] using hmem) (by simp)
  simp [forget, Installed, count_closeStore, hopen] at hcount

/-- A call that starts without a leak leaves none if and only if it closes all clients. -/
theorem noLeak_step {call : FactoryCall X} (hinv : Inv s) (h : NoLeak s) (hstep : Step s call s') :
    s.ClosesAll call ↔ NoLeak s' := by
  obtain rfl := hstep
  cases call with
  | getBlobStore => exact iff_of_true trivial (noLeak_getStore hinv h .blob)
  | getContentStore => exact iff_of_true trivial (noLeak_getStore hinv h .content)
  | getCacheStore => exact iff_of_true trivial (noLeak_getStore hinv h .cache)
  | closeStores cacheExc contentExc =>
    rw [exec, closeStores_eq]
    cases cacheExc with
    | none =>
      rw [if_neg (by simp)]
      exact iff_of_true trivial (noLeak_closeAll h)
    | some exc =>
      cases hcache : s.installed .cache with
      | none =>
        rw [if_neg (by simp)]
        exact iff_of_true (.inl hcache) (noLeak_closeAll h)
      | some n =>
        rw [if_pos (by simp)]
        cases hcontent : s.installed .content with
        | some number =>
          refine iff_of_false (fun hall => ?_) (content_lost hinv h hcontent)
          exact hall.elim (by simp [hcache]) (by simp [hcontent])
        | none =>
          have hnoop : (s.closeStore .cache).closeStore .content = s.closeStore .cache := by
            rw [closeStore, installed_closeStore, hcontent]
          have hall := noLeak_closeAll h
          rw [hnoop] at hall
          exact iff_of_true (.inr hcontent) hall

/-! ## Runs -/

/-- In a run every client is installed or has been closed once after every call if and only if no
close of a cache raises while a content store is installed. -/
theorem no_leak_iff (calls : List (FactoryCall X)) (s : Factory) :
    Run (fun s call s' => Step s call s' ∧ s.ClosesAll call) init calls s ↔
      Run (fun s call s' => Step s call s' ∧ NoLeak s') init calls s := by
  refine Run.guard_iff (fun s => s.Inv ∧ s.NoLeak) ⟨inv_init, noLeak_init⟩ ?_
  rintro s call s' ⟨hinv, hnoLeak⟩ hcall
  exact ⟨noLeak_step hinv hnoLeak hcall, fun hnoLeak' => ⟨inv_step hinv hcall, hnoLeak'⟩⟩

/-- The close of the cache raises, and the content store is forgotten without a close. -/
theorem content_leaked :
    ¬ ∀ (calls : List (FactoryCall Unit)) (s : Factory), Run Step init calls s → s.NoLeak := by
  intro hclaim
  have hrun : Run Step init [.getCacheStore, .getContentStore, .closeStores (some ()) none] _ :=
    .cons rfl <| .cons rfl <| .single rfl
  have hcontent := hclaim _ _ hrun ⟨.content, 1⟩ (by decide) (by decide)
  revert hcontent
  decide

end Factory

end Ipa
