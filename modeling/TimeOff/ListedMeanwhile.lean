import TimeOff.DecidedOnce
import TimeOff.Paging

/-! The pages of `listRequests` while the service goes on: new requests push the others down,
and a client that walks the pages still meets every request that was there when it began. -/

/-! Walks over the pages of a list that grows at its front between two pages. -/
namespace Pages

variable {α : Type} {xs : ℕ → List α} {out : List α} {size fuel n last offset bound : ℕ}

/-- The pages from `offset` on, page `n` of the `n`th list, with the number of the last of them. -/
def walkChanging (xs : ℕ → List α) (size : ℕ) : ℕ → ℕ → ℕ → Option (ℕ × List α)
  | 0, _, _ => none
  | fuel + 1, n, offset =>
    let page := ((xs n).drop offset).take size
    if (xs n).length ≤ offset + size then some (n, page)
    else (walkChanging xs size fuel (n + 1) (offset + size)).map fun r => (r.1, page ++ r.2)

/-- Each list begins with what is new, and goes on as the one before it. -/
def GrowsInFront (xs : ℕ → List α) : Prop := ∀ n, ∃ new, xs (n + 1) = new ++ xs n

/-- What lies behind an offset still does when the list has grown in front. -/
theorem drop_subset_drop_append (new xs : List α) (offset : ℕ) :
    xs.drop offset ⊆ (new ++ xs).drop offset := by
  intro x hx
  rw [List.drop_append]
  apply List.mem_append_right
  have hsuffix : xs.drop offset <:+ xs.drop (offset - new.length) := by
    have hsum : offset = (offset - new.length) + (offset - (offset - new.length)) := by omega
    rw [hsum, ← List.drop_drop, ← hsum]
    exact List.drop_suffix _ _
  exact hsuffix.subset hx

/-- Nothing is stepped over. -/
theorem walkChanging_covers (hgrows : GrowsInFront xs)
    (h : walkChanging xs size fuel n offset = some (last, out)) : (xs n).drop offset ⊆ out := by
  induction fuel generalizing n offset out with
  | zero => cases h
  | succ fuel ih =>
    simp only [walkChanging] at h
    intro x hx
    split at h
    · next hend =>
      cases h
      rw [List.take_of_length_le]
      · exact hx
      · rw [List.length_drop]
        omega
    · obtain ⟨⟨_, rest⟩, hrest, heq⟩ := Option.map_eq_some_iff.mp h
      cases heq
      rw [← List.take_append_drop size ((xs n).drop offset)] at hx
      rcases List.mem_append.mp hx with hpage | hlater
      · exact List.mem_append_left _ hpage
      -- what the page does not show lies behind the next offset, also in the longer list
      · apply List.mem_append_right
        rw [List.drop_drop] at hlater
        obtain ⟨new, hnew⟩ := hgrows n
        apply ih hrest
        rw [hnew]
        exact drop_subset_drop_append new _ _ hlater

theorem GrowsInFront.suffix (hgrows : GrowsInFront xs) {m : ℕ} (hle : n ≤ m) :
    xs n <:+ xs m := by
  induction hle with
  | refl => exact List.suffix_refl _
  | step _ ih =>
    obtain ⟨new, hnew⟩ := hgrows _
    rw [hnew]
    exact ih.trans (List.suffix_append _ _)

/-- As many elements are shown as the list has at the last page, and all are of that list. -/
theorem walkChanging_last (hgrows : GrowsInFront xs)
    (h : walkChanging xs size fuel n offset = some (last, out)) :
    n ≤ last ∧ out.length = (xs last).length - offset ∧ out ⊆ xs last := by
  induction fuel generalizing n offset out with
  | zero => cases h
  | succ fuel ih =>
    simp only [walkChanging] at h
    have hpage : ((xs n).drop offset).take size ⊆ xs n := by
      intro x hx
      exact List.mem_of_mem_drop (List.mem_of_mem_take hx)
    split at h
    · next hend =>
      cases h
      refine ⟨le_rfl, ?_, hpage⟩
      rw [List.length_take, List.length_drop]
      omega
    · next hmore =>
      obtain ⟨⟨m, rest⟩, hrest, heq⟩ := Option.map_eq_some_iff.mp h
      obtain ⟨hlast, hout⟩ := Prod.ext_iff.mp heq
      dsimp only at hlast hout
      rw [hlast] at hrest
      obtain ⟨hle, hlength, hsubset⟩ := ih hrest
      have hkept : xs n <:+ xs last := hgrows.suffix (by omega)
      have hcount := hkept.length_le
      rw [← hout]
      refine ⟨by omega, ?_, List.append_subset.mpr ⟨fun x hx => ?_, hsubset⟩⟩
      · rw [List.length_append, hlength, List.length_take, List.length_drop]
        omega
      · exact hkept.subset (hpage hx)

/-- A list that stays within a bound is walked to its end. -/
theorem walkChanging_isSome (hsize : 0 < size) (hbound : ∀ n, (xs n).length ≤ bound)
    (fuel n offset : ℕ) (hfuel : bound - offset < fuel) :
    (walkChanging xs size fuel n offset).isSome = true := by
  induction fuel generalizing n offset with
  | zero => exact absurd hfuel (Nat.not_lt_zero _)
  | succ fuel ih =>
    simp only [walkChanging]
    split
    · rfl
    · next hmore =>
      have hlength := hbound n
      rw [Option.isSome_map]
      apply ih
      omega

end Pages

namespace TimeOff

open Async

section Rows

variable {s s' : Store} {w w' : World} {i : ℕ}

/-- What the requests of a store were created with. -/
def Store.asked (s : Store) : List Asked := s.requests.map (·.asked)

/-- Requests are only appended, with the time of their creation. -/
structure Appends (w w' : World) : Prop where
  clock : w.clock ≤ w'.clock
  requests : ∃ new, w'.store.asked = w.store.asked ++ new ∧
    ∀ a ∈ new, w.clock ≤ a.createdAt ∧ a.createdAt ≤ w'.clock

theorem Appends.of_store (hclock : w.clock ≤ w'.clock) (hstore : w'.store = w.store) :
    Appends w w' := by
  refine ⟨hclock, [], ?_, fun a ha => (List.not_mem_nil ha).elim⟩
  rw [hstore, List.append_nil]

theorem Appends.trans {w'' : World} (h : Appends w w') (h' : Appends w' w'') :
    Appends w w'' := by
  obtain ⟨new, hnew, htimes⟩ := h.requests
  obtain ⟨new', hnew', htimes'⟩ := h'.requests
  refine ⟨h.clock.trans h'.clock, new ++ new', ?_, fun a ha => ?_⟩
  · rw [hnew', hnew, List.append_assoc]
  · rcases List.mem_append.mp ha with ha | ha
    · exact ⟨(htimes a ha).1, (htimes a ha).2.trans h'.clock⟩
    · exact ⟨h.clock.trans (htimes' a ha).1, (htimes' a ha).2⟩

/-- No call of the database changes what a request was created with. -/
theorem run_appends (o : DbOp) (now fresh : ℕ) (s : Store) :
    ∃ new, (o.run now fresh s).2.asked = s.asked ++ new ∧ ∀ a ∈ new, a.createdAt = now := by
  rcases o.run_requests now fresh s with hsame | ⟨id, patch, _, hsaved⟩ | ⟨r, row, _, hrow, hs⟩
  · refine ⟨[], ?_, fun a ha => (List.not_mem_nil ha).elim⟩
    rw [Store.asked, hsame, List.append_nil, Store.asked]
  · refine ⟨[], ?_, fun a ha => (List.not_mem_nil ha).elim⟩
    rw [hsaved, List.append_nil, Store.asked, Store.asked]
    change (s.requests.map _).map _ = _
    rw [List.map_map]
    apply List.map_congr_left
    intro r _
    rw [Function.comp_apply]
    split <;> rfl
  · obtain ⟨_, _, hrequests, _⟩ := Store.insertRequest_eq hs
    refine ⟨[row.asked], ?_, fun a ha => ?_⟩
    · rw [Store.asked, hrequests, List.map_append, List.map_singleton, Store.asked]
    · rw [List.mem_singleton.mp ha]
      obtain ⟨days, _, hdays⟩ := Option.map_eq_some_iff.mp hrow
      rw [← hdays]
      rfl

theorem db_appends (w : World) (o : DbOp) : Appends w (w.db o).2 := by
  obtain ⟨new, hnew, htimes⟩ := run_appends o w.clock w.nextId w.store
  refine ⟨le_rfl, new, hnew, fun a ha => ?_⟩
  rw [htimes a ha]
  exact ⟨le_rfl, le_rfl⟩

/-- Time passes between the operations. -/
theorem baseExec_clock {o : BaseOp} {x : Choice} {r : Except Err o.Resp}
    (h : o.exec i x w = some (r, w')) : w'.clock = w.clock := by
  cases o with
  | db d =>
    obtain ⟨⟨r', u⟩, hu, heq⟩ := Option.map_eq_some_iff.mp h
    cases heq
    rcases execDb_cases hu with ⟨_, _, _, rfl⟩ | ⟨_, rfl⟩ <;> rfl
  | awaitPrevious =>
    obtain ⟨l, _, heq⟩ := Option.map_eq_some_iff.mp h
    cases heq
    rfl
  | awaitPut message put =>
    obtain ⟨l, _, heq⟩ := Option.map_eq_some_iff.mp h
    cases heq
    cases r with
    | ok reply =>
      simp only [World.acknowledge]
      split <;> rfl
    | error e => rfl
  | validateRequest key days => cases x <;> cases h <;> rfl
  | sendPut put => cases x <;> cases h <;> rfl
  | _ =>
    cases h
    rfl

theorem txExec_appends {o : TxOp} {x : Choice} {r : Except Err o.Resp}
    (h : o.exec x w = some (r, w')) : Appends w w' := by
  cases o with
  | db o =>
    rcases execDb_cases h with ⟨_, _, _, rfl⟩ | ⟨_, rfl⟩
    · exact .of_store le_rfl rfl
    · exact db_appends w o
  | now =>
    cases h
    exact .of_store le_rfl rfl
  | setImmediate task =>
    cases h
    exact .of_store le_rfl rfl

theorem exec_appends {o : Op} {x : AtomicChoice} {r : Except Err o.Resp}
    (h : o.exec i x w = some (r, w')) : Appends w w' := by
  cases o with
  | base o =>
    cases x with
    | transaction xs commit => cases h
    | op x =>
      have hclock := baseExec_clock h
      by_cases hdb : ∃ d, o = .db d
      · obtain ⟨d, rfl⟩ := hdb
        rcases exec_db_cases h with ⟨_, _, _, hstore⟩ | ⟨_, hstore⟩
        · exact .of_store hclock.ge hstore
        · obtain ⟨_, new, hnew, htimes⟩ := db_appends w d
          refine ⟨hclock.ge, new, ?_, fun a ha => ?_⟩
          · rw [hstore]
            exact hnew
          · rw [hclock]
            exact htimes a ha
      · exact .of_store hclock.ge (exec_store (fun d hd => hdb ⟨d, hd⟩) h)
  -- a transaction keeps what its callback did, or nothing of it
  | transaction body =>
    rcases exec_transaction h with ⟨_, _, _, rfl⟩ | ⟨xs, commit, h⟩
    · exact .of_store le_rfl rfl
    obtain ⟨⟨y, u⟩, hplay, hr⟩ := Option.bind_eq_some_iff.mp h
    have hu : Appends w u := by
      refine Prog.play_inv (Appends w) ?_ (.of_store le_rfl rfl) hplay
      exact fun o c s r s' hs hw => hw.trans (txExec_appends hs)
    dsimp only at hr
    split at hr <;> cases hr
    · exact hu
    · exact .of_store hu.clock rfl
    · exact .of_store hu.clock rfl

/-- No request has been created in the future. -/
def World.Past (w : World) : Prop := ∀ a ∈ w.store.asked, a.createdAt ≤ w.clock

theorem Appends.past (h : Appends w w') (hw : w.Past) : w'.Past := by
  obtain ⟨new, hnew, htimes⟩ := h.requests
  intro a ha
  rw [hnew] at ha
  rcases List.mem_append.mp ha with ha | ha
  · exact (hw a ha).trans h.clock
  · exact (htimes a ha).2

/-- What every action of the service does to the requests, no transaction being open. -/
def AppendsIdle (w w' : World) : Prop := w.journal = [] → w'.journal = [] ∧ Appends w w'

theorem moves_appends (cfg : Config) (C : AtomicPool → Act Call AtomicChoice Env → Prop) :
    (atomicMachine cfg).Moves C (CallOp cfg) AppendsIdle where
  refl w hidle := ⟨hidle, .of_store le_rfl rfl⟩
  trans h h' hidle := by
    obtain ⟨hidle', hfirst⟩ := h hidle
    obtain ⟨hidle'', hthen⟩ := h' hidle'
    exact ⟨hidle'', hfirst.trans hthen⟩
  code _ := svc_each cfg _
  accept h hidle := by
    rcases accept_cases h with rfl | ⟨_, _, _, rfl⟩ <;> exact ⟨hidle, .of_store le_rfl rfl⟩
  exec _ h hidle := ⟨(opExec_sameCalls h).journal.trans hidle, exec_appends h⟩
  finish _ _ _ _ hidle := ⟨hidle, .of_store le_rfl rfl⟩
  env {e} _ _ h hidle := by
    obtain ⟨hstore, hsame⟩ := env_sameCalls h
    refine ⟨hsame.journal.trans hidle, .of_store ?_ hstore⟩
    cases e with
    | tick ms =>
      cases h
      exact Nat.le_add_right _ _
    | drop message =>
      cases h
      exact le_rfl
    | settle j =>
      obtain ⟨l, _, rfl⟩ := Option.map_eq_some_iff.mp h
      exact le_rfl
    | deliver message =>
      obtain ⟨l, _, rfl⟩ := Option.map_eq_some_iff.mp h
      exact le_rfl
  halt w hidle := by
    refine ⟨rfl, .of_store le_rfl ?_⟩
    change undoAll w.journal w.store = w.store
    rw [hidle]
    rfl

end Rows

section Listing

variable {s s' : Store} {w w' : World} {filters : ListFilters}

/-- The matching requests in the order of a listing. -/
def Store.listing (s : Store) (order : OrderBy) (filters : ListFilters) : List Asked :=
  (order.arrange (s.matching filters)).map (·.asked)

/-- Without a status, a filter looks at columns that never change. -/
def ListFilters.selectsAsked (filters : ListFilters) (a : Asked) : Bool :=
  filterBy filters.employeeId a.balanceKey.employeeId &&
    filterBy filters.locationId a.balanceKey.locationId

theorem matching_asked (hstatus : filters.status = none) :
    (s.matching filters).map (·.asked) = s.asked.filter filters.selectsAsked := by
  rw [Store.asked, List.filter_map, Store.matching]
  congr 1
  apply List.filter_congr
  intro r _
  rw [ListFilters.selects, hstatus, Function.comp_apply]
  exact Bool.and_true _

theorem listing_perm (order : OrderBy) (hstatus : filters.status = none) :
    (s.listing order filters).Perm (s.asked.filter filters.selectsAsked) := by
  rw [← matching_asked hstatus]
  exact (order.perm _).map _

theorem listing_newestFirst (order : OrderBy) :
    (s.listing order filters).Pairwise fun a b => b.createdAt ≤ a.createdAt :=
  List.pairwise_map.mpr (order.newestFirst _)

/-- What has been created meanwhile is listed first; the rest is listed as before. -/
theorem listing_grows {order order' : OrderBy} (hstatus : filters.status = none)
    (happends : Appends w w') (hpast : w.Past)
    (hdistinct : ((w'.store.matching filters).map (·.createdAt)).Nodup) :
    ∃ new, w'.store.listing order' filters = new ++ w.store.listing order filters := by
  obtain ⟨new, hnew, htimes⟩ := happends.requests
  have hsorted : ((new.filter filters.selectsAsked).insertionSort
      fun a b => b.createdAt ≤ a.createdAt).Pairwise fun a b => b.createdAt ≤ a.createdAt := by
    have htotal : Std.Total fun a b : Asked => b.createdAt ≤ a.createdAt :=
      ⟨fun a b => Nat.le_total b.createdAt a.createdAt⟩
    have htrans : IsTrans Asked fun a b => b.createdAt ≤ a.createdAt :=
      ⟨fun _ _ _ hba hcb => hcb.trans hba⟩
    exact List.pairwise_insertionSort _ _
  have hold := listing_perm (s := w.store) order hstatus
  refine ⟨(new.filter filters.selectsAsked).insertionSort fun a b => b.createdAt ≤ a.createdAt, ?_⟩
  have hperm : (w'.store.listing order' filters).Perm
      ((new.filter filters.selectsAsked).insertionSort (fun a b => b.createdAt ≤ a.createdAt) ++
        w.store.listing order filters) := by
    apply (listing_perm order' hstatus).trans
    rw [hnew, List.filter_append]
    apply List.perm_append_comm.trans
    exact (List.perm_insertionSort _ _).symm.append hold.symm
  -- two sorted lists of the same requests, which no two share a time
  apply hperm.eq_of_pairwise _ (listing_newestFirst order')
  · apply List.pairwise_append.mpr
    refine ⟨hsorted, listing_newestFirst order, fun a ha b hb => ?_⟩
    have hmem := (List.perm_insertionSort _ _).mem_iff.mp ha
    have hb' := List.mem_of_mem_filter (hold.mem_iff.mp hb)
    exact (hpast b hb').trans (htimes a (List.mem_of_mem_filter hmem)).1
  · intro a b ha hb hba hab
    have hnodup : ((w'.store.listing order' filters).map (·.createdAt)).Nodup := by
      rw [Store.listing, List.map_map]
      exact (((order'.perm (w'.store.matching filters)).map (·.createdAt)).nodup_iff).mpr hdistinct
    exact List.inj_on_of_nodup_map hnodup ha (hperm.mem_iff.mpr hb) (Nat.le_antisymm hab hba)

end Listing

section Walk

/-- A client that walks the pages of `listRequests` as `walkRequests` does, while the service
goes on: at its `n`th call it finds the tables `stores n`. It ends with the number of its last
call. -/
def walkMeanwhile (stores : ℕ → Store) (orders : ℕ → OrderBy) (filters : ListFilters)
    (limit : ℕ) : ℕ → ℕ → ℕ → Option (ℕ × List RequestBody)
  | 0, _, _ => none
  | fuel + 1, n, offset =>
    let page := listRequests (stores n) (orders n)
      { filters with limit := some limit, offset := some offset }
    if page.total ≤ offset + page.limit then some (n, page.data)
    else (walkMeanwhile stores orders filters limit fuel (n + 1) (offset + page.limit)).map
      fun r => (r.1, page.data ++ r.2)

variable {limit : ℕ}

/-- By a limit that the cap leaves alone, the client is shown the pages of the listings. -/
theorem walkMeanwhile_eq (stores : ℕ → Store) (orders : ℕ → OrderBy) (filters : ListFilters)
    (hcap : limit ≤ 100) (fuel n offset : ℕ) :
    (walkMeanwhile stores orders filters limit fuel n offset).map
        (fun r => (r.1, r.2.map (·.asked))) =
      Pages.walkChanging (fun n => (stores n).listing (orders n) filters) limit fuel n offset := by
  induction fuel generalizing n offset with
  | zero => rfl
  | succ fuel ih =>
    have hdata : (listRequests (stores n) (orders n)
        { filters with limit := some limit, offset := some offset }).data.map (·.asked) =
        (((stores n).listing (orders n) filters).drop offset).take limit := by
      change List.map _ (List.map serializeRequest
        ((((orders n).arrange ((stores n).matching filters)).drop offset).take
          (min limit 100))) = _
      rw [min_eq_left hcap, List.map_map, Store.listing, ← List.map_drop,
        ← List.map_take]
      rfl
    have hlength : ((stores n).listing (orders n) filters).length =
        ((stores n).matching filters).length := by
      rw [Store.listing, List.length_map, ((orders n).perm _).length_eq]
    simp only [walkMeanwhile, Pages.walkChanging]
    rw [hlength]
    change Option.map _ (if ((stores n).matching filters).length ≤ offset + limit then _
      else _) = _
    split
    · rw [Option.map_some, hdata]
    · rw [← ih, Option.map_map, Option.map_map]
      congr 1
      funext rest
      rw [Function.comp_apply, Function.comp_apply, List.map_append, hdata]

end Walk

/-- No request is stepped over. While calls and tasks interleave with the reading of the pages,
a client that lists by employee and location and by at most 100 at a time is sent every request
that matched at its first page, and as many as match at the page at which it ends, all of them
among those; and it comes to an end if the requests do not grow without bound. Each request has
its own time of creation, as for a walk of tables that stand still, and none of those that the
service starts with lies in the future. -/
theorem walk_meets_all (cfg : Config) (store : Store) (clock nextId : ℕ)
    (hcmBalances : List (String × HcmBalance)) (pools : ℕ → AtomicPool)
    (hstart : (atomicMachine cfg).Reach (fun _ _ => True)
      (Pool.init (World.init store clock nextId (.init hcmBalances))) (pools 0))
    (hgoes : ∀ n, (atomicMachine cfg).Reach (fun _ _ => True) (pools n) (pools (n + 1)))
    (hpast : ∀ r ∈ store.requests, r.createdAt ≤ clock) (orders : ℕ → OrderBy)
    (filters : ListFilters) (hstatus : filters.status = none) (limit : ℕ) (hlimit : 1 ≤ limit)
    (hcap : limit ≤ 100)
    (hdistinct : ∀ n, (((pools n).shared.store.matching filters).map (·.createdAt)).Nodup) :
    (∀ fuel last received,
      walkMeanwhile (fun n => (pools n).shared.store) orders filters limit fuel 0 0 =
        some (last, received) →
      (∀ r ∈ (pools 0).shared.store.matching filters, ∃ body ∈ received, body.asked = r.asked) ∧
      received.length = ((pools last).shared.store.matching filters).length ∧
      ∀ body ∈ received, ∃ r ∈ (pools last).shared.store.matching filters,
        r.asked = body.asked) ∧
    ∀ bound, (∀ n, ((pools n).shared.store.matching filters).length ≤ bound) →
      ∃ last received, walkMeanwhile (fun n => (pools n).shared.store) orders filters limit
        (bound + 1) 0 0 = some (last, received) := by
  have hall (n : ℕ) : Machine.Within (CallOp cfg) (pools n) ∧ (pools n).shared.journal = [] ∧
      (pools n).shared.Past := by
    induction n with
    | zero =>
      obtain ⟨happends, hwithin⟩ :=
        (moves_appends cfg _).reach (Machine.Moves.within_init _) hstart
      obtain ⟨hidle, happends⟩ := happends rfl
      refine ⟨hwithin, hidle, happends.past fun a ha => ?_⟩
      obtain ⟨r, hr, rfl⟩ := List.mem_map.mp ha
      exact hpast r hr
    | succ n ih =>
      obtain ⟨happends, hwithin⟩ := (moves_appends cfg _).reach ih.1 (hgoes n)
      obtain ⟨hidle, happends⟩ := happends ih.2.1
      exact ⟨hwithin, hidle, happends.past ih.2.2⟩
  have hgrows : Pages.GrowsInFront fun n =>
      (pools n).shared.store.listing (orders n) filters := by
    intro n
    obtain ⟨hwithin, hidle, hpast⟩ := hall n
    have happends := ((moves_appends cfg _).reach hwithin (hgoes n)).1 hidle
    exact listing_grows hstatus happends.2 hpast (hdistinct (n + 1))
  have hlength (n : ℕ) : ((pools n).shared.store.listing (orders n) filters).length =
      ((pools n).shared.store.matching filters).length := by
    rw [Store.listing, List.length_map, ((orders n).perm _).length_eq]
  refine ⟨fun fuel last received hreceived => ?_, fun bound hbound => ?_⟩
  · have hwalk := walkMeanwhile_eq (fun n => (pools n).shared.store) orders filters hcap
      fuel 0 0
    rw [hreceived, Option.map_some] at hwalk
    refine ⟨fun r hr => ?_, ?_⟩
    · have hlisted : r.asked ∈ (pools 0).shared.store.listing (orders 0) filters :=
        List.mem_map_of_mem (((orders 0).perm _).mem_iff.mpr hr)
      exact List.mem_map.mp (Pages.walkChanging_covers hgrows hwalk.symm hlisted)
    · obtain ⟨_, hcount, hsubset⟩ := Pages.walkChanging_last hgrows hwalk.symm
      refine ⟨?_, fun body hbody => ?_⟩
      · rw [List.length_map, hlength] at hcount
        exact hcount
      · obtain ⟨r, hr, hasked⟩ := List.mem_map.mp (hsubset (List.mem_map_of_mem hbody))
        exact ⟨r, ((orders last).perm _).mem_iff.mp hr, hasked⟩
  · have hends := Pages.walkChanging_isSome hlimit
      (fun n => (hlength n).trans_le (hbound n)) (bound + 1) 0 0 (by omega)
    rw [← walkMeanwhile_eq _ orders filters hcap, Option.isSome_map] at hends
    obtain ⟨⟨last, received⟩, hreceived⟩ := Option.isSome_iff_exists.mp hends
    exact ⟨last, received, hreceived⟩

/-- Two old requests, and days for a new one. -/
def twoListed : World :=
  World.init { serialStore 2 with
    balances := [⟨plainKey, 10, 10, 0, 0, 10, none, none, false, none, 1⟩]
    balanceKeys := List.nodup_singleton _ } 1000 2 (.init [])

def newRequestRun : List (Act Call AtomicChoice Env) :=
  [.start (.create (plainDto "2030-01-07" "2030-01-08") "key-1")] ++ (steps 5).map (.step 0) ++
    [.step 0 (committed 7)] ++ (steps 2).map (.step 0)

theorem newRequest_runs : ((atomicMachine plainConfig).run (fun _ _ => True)
    (Pool.init twoListed) newRequestRun).isSome = true := by decide +kernel

/-- The pools that a client finds which is served its first page just before the creation. -/
def createdMeanwhile : ℕ → AtomicPool
  | 0 => Pool.init twoListed
  | _ + 1 => ((atomicMachine plainConfig).run (fun _ _ => True) (Pool.init twoListed)
      newRequestRun).get newRequest_runs

theorem createdMeanwhile_listed :
    (createdMeanwhile 1).shared.store.requests.map (·.createdAt) = [0, 1, 1000] := by
  decide +kernel

/-- The oldest request, pushed from the second page to the third, is still met. -/
theorem oldest_request_met : ∃ last received,
    walkMeanwhile (fun n => (createdMeanwhile n).shared.store) (fun _ => .inserted) noFilters 1
      4 0 0 = some (last, received) ∧
    received.length = ((createdMeanwhile last).shared.store.matching noFilters).length ∧
    ∃ body ∈ received, body.asked = (serialRequest 0).asked := by
  have hmatching (n : ℕ) : (createdMeanwhile n).shared.store.matching noFilters =
      (createdMeanwhile n).shared.store.requests := List.filter_eq_self.mpr fun _ _ => rfl
  have hrun := (Option.some_get newRequest_runs).symm
  have hwalk := walk_meets_all plainConfig twoListed.store 1000 2 [] createdMeanwhile .refl
    (fun n => by
      cases n with
      | zero => exact Machine.reach_of_run .refl hrun
      | succ n => exact .refl)
    (by decide +kernel) (fun _ => .inserted) noFilters rfl 1 le_rfl (by decide)
    (fun n => by
      rw [hmatching]
      cases n with
      | zero => decide +kernel
      | succ n =>
        change ((createdMeanwhile 1).shared.store.requests.map (·.createdAt)).Nodup
        rw [createdMeanwhile_listed]
        decide)
  obtain ⟨last, received, hreceived⟩ := hwalk.2 3 fun n => by
    rw [hmatching]
    cases n with
    | zero => decide +kernel
    | succ n =>
      have hlength := congrArg List.length createdMeanwhile_listed
      rw [List.length_map] at hlength
      exact hlength.le
  have hmem : serialRequest 0 ∈ (createdMeanwhile 0).shared.store.matching noFilters := by
    rw [hmatching]
    exact List.mem_cons_self
  obtain ⟨hmet, hcount, _⟩ := hwalk.1 4 last received hreceived
  exact ⟨last, received, hreceived, hcount, hmet (serialRequest 0) hmem⟩

end TimeOff
