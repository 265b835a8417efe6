import TimeOff.Store
import Mathlib.Tactic.Linarith

/-! `listRequests` and a client that walks its pages. The number of rows taken is capped at
100, the limit reported back is not, so a walk by a larger limit steps over rows. -/

/-! Walks over the pages of a list: `size` elements are shown, and the next page begins
`stride` elements further on. -/
namespace Pages

variable {α : Type} {xs out : List α} {size stride fuel offset : ℕ}

/-- The pages from `offset` on, one after the other, until an offset is past the end. -/
def walk (xs : List α) (size stride : ℕ) : ℕ → ℕ → Option (List α)
  | 0, _ => none
  | fuel + 1, offset =>
    let page := (xs.drop offset).take size
    if xs.length ≤ offset + stride then some page
    else (walk xs size stride fuel (offset + stride)).map (page ++ ·)

/-- Enough fuel takes a walk to its end. -/
theorem walk_isSome (hstride : 0 < stride) (h : xs.length - offset < fuel) :
    ∃ out, walk xs size stride fuel offset = some out := by
  induction fuel generalizing offset with
  | zero => exact absurd h (Nat.not_lt_zero _)
  | succ fuel ih =>
    simp only [walk]
    split
    · exact ⟨_, rfl⟩
    · obtain ⟨out, hout⟩ := ih (show xs.length - (offset + stride) < fuel by omega)
      exact ⟨_, congrArg (Option.map _) hout⟩

/-- Pages that lie end to end make up the list. -/
theorem walk_eq_drop (h : walk xs size size fuel offset = some out) : out = xs.drop offset := by
  induction fuel generalizing offset out with
  | zero => cases h
  | succ fuel ih =>
    simp only [walk] at h
    split at h
    -- a short page ends the walk, so it holds all that is left
    · next hend =>
      rw [← Option.some.inj h]
      apply List.take_of_length_le
      rw [List.length_drop]
      omega
    -- a full page: the rest of the walk starts one page further
    · obtain ⟨rest, hrest, rfl⟩ := Option.map_eq_some_iff.mp h
      rw [ih hrest]
      calc (xs.drop offset).take size ++ xs.drop (offset + size)
          = (xs.drop offset).take size ++ (xs.drop offset).drop size := by rw [List.drop_drop]
        _ = xs.drop offset := List.take_append_drop _ _

/-- A first page that shows the whole list is the whole walk. -/
theorem walk_of_length_le (hsize : xs.length ≤ size) (hstride : xs.length ≤ stride)
    (h : walk xs size stride fuel 0 = some out) : out = xs := by
  cases fuel with
  | zero => cases h
  | succ fuel =>
    simp only [walk] at h
    rw [if_pos (by omega), List.drop_zero, List.take_of_length_le hsize] at h
    exact (Option.some.inj h).symm

theorem walk_length_le (hsize : size ≤ stride) (h : walk xs size stride fuel offset = some out) :
    out.length ≤ xs.length - offset := by
  induction fuel generalizing offset out with
  | zero => cases h
  | succ fuel ih =>
    simp only [walk] at h
    split at h
    · rw [← Option.some.inj h, List.length_take, List.length_drop]
      omega
    · obtain ⟨rest, hrest, rfl⟩ := Option.map_eq_some_iff.mp h
      have hle := ih hrest
      rw [List.length_append, List.length_take, List.length_drop]
      omega

/-- A walk that steps further than its pages reach misses what follows the first of them. -/
theorem walk_length_lt (hsize : size < stride) (hmore : offset + size < xs.length)
    (h : walk xs size stride fuel offset = some out) : out.length < xs.length - offset := by
  cases fuel with
  | zero => cases h
  | succ fuel =>
    simp only [walk] at h
    split at h
    · rw [← Option.some.inj h, List.length_take, List.length_drop]
      omega
    · obtain ⟨rest, hrest, rfl⟩ := Option.map_eq_some_iff.mp h
      have hle := walk_length_le hsize.le hrest
      rw [List.length_append, List.length_take, List.length_drop]
      omega

end Pages

namespace TimeOff

/-- `ORDER BY createdAt DESC`: rows created at the same time come in any order. -/
structure OrderBy where
  arrange : List TimeOffRequest → List TimeOffRequest
  perm : ∀ rows, (arrange rows).Perm rows
  newestFirst : ∀ rows, (arrange rows).Pairwise fun a b => b.createdAt ≤ a.createdAt

/-- The filters of `listRequests`; the controller has refused a status that names none. -/
structure ListFilters where
  employeeId : Option String
  locationId : Option String
  status : Option String
  limit : Option ℕ
  offset : Option ℕ

/-- A column is compared with a filter that is given and not empty. -/
def filterBy (wanted : Option String) (column : String) : Bool :=
  wanted.all fun value => value = "" || value = column

def ListFilters.selects (filters : ListFilters) (r : TimeOffRequest) : Bool :=
  filterBy filters.employeeId r.employeeId && filterBy filters.locationId r.locationId &&
    filterBy filters.status r.status.text

def Store.matching (s : Store) (filters : ListFilters) : List TimeOffRequest :=
  s.requests.filter filters.selects

/-- The rows of a page and the number of rows there are. -/
def Store.findAndCount (s : Store) (order : OrderBy) (filters : ListFilters)
    (take skip : ℕ) : List TimeOffRequest × ℕ :=
  (((order.arrange (s.matching filters)).drop skip).take take, (s.matching filters).length)

structure ListResponse where
  data : List RequestBody
  total : ℕ
  limit : ℕ
  offset : ℕ

def listRequests (s : Store) (order : OrderBy) (filters : ListFilters) : ListResponse :=
  let limit := filters.limit.getD 50
  let offset := filters.offset.getD 0
  let found := s.findAndCount order filters (min limit 100) offset
  ⟨found.1.map serializeRequest, found.2, limit, offset⟩

/-- A client that calls with the same filters and limit and advances its offset by the limit
of each response, until it has passed the total; `orders` is what the database does with ties
at each of the calls. -/
def walkRequests (s : Store) (orders : ℕ → OrderBy) (filters : ListFilters) (limit : ℕ) :
    ℕ → ℕ → Option (List RequestBody)
  | 0, _ => none
  | fuel + 1, offset =>
    let page := listRequests s (orders offset)
      { filters with limit := some limit, offset := some offset }
    if page.total ≤ offset + page.limit then some page.data
    else (walkRequests s orders filters limit fuel (offset + page.limit)).map (page.data ++ ·)

/-- The client gets to the end, and `received` is all it was sent. -/
def Receives (s : Store) (orders : ℕ → OrderBy) (filters : ListFilters) (limit : ℕ)
    (received : List RequestBody) : Prop :=
  ∃ fuel, walkRequests s orders filters limit fuel 0 = some received

section Walk

variable {s : Store} {filters : ListFilters} {limit : ℕ} {received : List RequestBody}

/-- Rows created at distinct times have one order. -/
theorem OrderBy.arrange_unique (order order' : OrderBy) {rows : List TimeOffRequest}
    (h : (rows.map (·.createdAt)).Nodup) : order.arrange rows = order'.arrange rows := by
  have hperm : (order.arrange rows).Perm (order'.arrange rows) :=
    (order.perm rows).trans (order'.perm rows).symm
  -- two sorted permutations of the rows, and only rows of one time could be swapped
  apply hperm.eq_of_pairwise _ (order.newestFirst rows) (order'.newestFirst rows)
  intro a b ha hb hba hab
  exact List.inj_on_of_nodup_map h ((order.perm rows).subset ha) ((order'.perm rows).subset hb)
    (Nat.le_antisymm hab hba)

theorem walkRequests_eq (orders : ℕ → OrderBy)
    (hdistinct : ((s.matching filters).map (·.createdAt)).Nodup) (fuel offset : ℕ) :
    walkRequests s orders filters limit fuel offset =
      Pages.walk (((orders 0).arrange (s.matching filters)).map serializeRequest)
        (min limit 100) limit fuel offset := by
  have hlength : ((orders 0).arrange (s.matching filters)).length =
      (s.matching filters).length := ((orders 0).perm _).length_eq
  -- by induction on the calls that are left: each page is a slice of the one order
  induction fuel generalizing offset with
  | zero => rfl
  | succ fuel ih =>
    have hdata : (listRequests s (orders offset)
        { filters with limit := some limit, offset := some offset }).data =
        ((((orders 0).arrange (s.matching filters)).map serializeRequest).drop offset).take
          (min limit 100) := by
      show List.map serializeRequest
        ((((orders offset).arrange (s.matching filters)).drop offset).take (min limit 100)) = _
      rw [List.map_take, List.map_drop, (orders offset).arrange_unique (orders 0) hdistinct]
    simp only [walkRequests, Pages.walk]
    rw [hdata, List.length_map, hlength]
    show (if (s.matching filters).length ≤ offset + limit then _ else
      Option.map _ (walkRequests s orders filters limit fuel (offset + limit))) = _
    rw [ih]

theorem receives_iff (orders : ℕ → OrderBy)
    (hdistinct : ((s.matching filters).map (·.createdAt)).Nodup) :
    Receives s orders filters limit received ↔
      ∃ fuel, Pages.walk (((orders 0).arrange (s.matching filters)).map serializeRequest)
        (min limit 100) limit fuel 0 = some received := by
  simp only [Receives, walkRequests_eq orders hdistinct]

/-- By a limit above 100 the walk of more than 100 requests is sent fewer than there are. -/
theorem Receives.length_lt {orders : ℕ → OrderBy} (hlimit : 100 < limit)
    (hmany : 100 < (s.matching filters).length)
    (hdistinct : ((s.matching filters).map (·.createdAt)).Nodup)
    (h : Receives s orders filters limit received) :
    received.length < (s.matching filters).length := by
  obtain ⟨fuel, hwalk⟩ := (receives_iff orders hdistinct).mp h
  have hlength : (((orders 0).arrange (s.matching filters)).map serializeRequest).length =
      (s.matching filters).length := by
    rw [List.length_map]
    exact ((orders 0).perm _).length_eq
  have hlt := Pages.walk_length_lt (by omega) (by omega) hwalk
  omega

end Walk

/-- The walk is sent every matching request once, and nothing else, exactly if its limit or
the number of matching requests is at most 100. -/
theorem walk_complete_iff (s : Store) (orders : ℕ → OrderBy) (filters : ListFilters)
    (limit : ℕ) (hlimit : 1 ≤ limit)
    (hdistinct : ((s.matching filters).map (·.createdAt)).Nodup) :
    (∃ received, Receives s orders filters limit received ∧
        received.Perm ((s.matching filters).map serializeRequest)) ↔
      limit ≤ 100 ∨ (s.matching filters).length ≤ 100 := by
  constructor
  · intro h
    obtain ⟨received, hreceived, hperm⟩ := h
    -- beyond the cap too few are sent for a permutation of all
    by_contra hbeyond
    have hlt := Receives.length_lt (by omega) (by omega) hdistinct hreceived
    have hlength := hperm.length_eq
    rw [List.length_map] at hlength
    omega
  · intro hwithin
    have hperm := ((orders 0).perm (s.matching filters)).map serializeRequest
    have hlength := ((orders 0).perm (s.matching filters)).length_eq
    obtain ⟨received, hwalk⟩ : ∃ received,
        Pages.walk (((orders 0).arrange (s.matching filters)).map serializeRequest)
          (min limit 100) limit
          ((((orders 0).arrange (s.matching filters)).map serializeRequest).length + 1) 0 =
            some received :=
      Pages.walk_isSome (by omega) (Nat.lt_succ_self _)
    refine ⟨received, (receives_iff orders hdistinct).mpr ⟨_, hwalk⟩, ?_⟩
    -- a limit within the cap is what the pages take; fewer than 101 fit into one page
    rcases hwithin with hsmall | hfew
    · rw [min_eq_left hsmall] at hwalk
      rw [Pages.walk_eq_drop hwalk, List.drop_zero]
      exact hperm
    · have hle : (((orders 0).arrange (s.matching filters)).map serializeRequest).length ≤
          100 := by
        rw [List.length_map]
        omega
      by_cases hsmall : limit ≤ 100
      · rw [min_eq_left hsmall] at hwalk
        rw [Pages.walk_eq_drop hwalk, List.drop_zero]
        exact hperm
      · rw [Pages.walk_of_length_le (by omega) (by omega) hwalk]
        exact hperm

/-- An order to compute with. -/
def OrderBy.inserted : OrderBy where
  arrange rows := rows.insertionSort fun a b => b.createdAt ≤ a.createdAt
  perm rows := List.perm_insertionSort _ rows
  newestFirst rows := by
    have htotal : Std.Total fun a b : TimeOffRequest => b.createdAt ≤ a.createdAt :=
      ⟨fun a b => Nat.le_total b.createdAt a.createdAt⟩
    have htrans : IsTrans TimeOffRequest fun a b => b.createdAt ≤ a.createdAt :=
      ⟨fun _ _ _ hba hcb => hcb.trans hba⟩
    exact List.pairwise_insertionSort _ rows

/-- The `n`th of a series of requests, created at `n`. -/
def serialRequest (n : ℕ) : TimeOffRequest where
  id := n
  idempotencyKey := String.ofList (List.replicate n 'k')
  employeeId := "EMP123"
  locationId := "LOC1"
  leaveType := "VACATION"
  startDate := "2026-06-01"
  endDate := "2026-06-01"
  daysRequested := 1
  status := .rejected
  requestedBy := "EMP123"
  approvedBy := none
  approvedAt := none
  rejectionReason := none
  notes := none
  hcmValidated := false
  hcmSyncStatus := .pending
  hcmSyncAttempts := 0
  hcmLastSyncAt := none
  version := 1
  createdAt := n
  updatedAt := n

theorem serial_nodup {β : Type} {f : ℕ → β} (hf : Function.Injective f) (n : ℕ) :
    ((List.range n).map f).Nodup :=
  List.nodup_range.map hf

def serialStore (n : ℕ) : Store where
  balances := []
  requests := (List.range n).map serialRequest
  records := []
  balanceKeys := List.nodup_nil
  requestIds := by
    rw [List.map_map]
    exact serial_nodup (fun _ _ h => h) n
  requestKeys := by
    rw [List.map_map]
    apply serial_nodup
    intro i j h
    have hlength := congrArg List.length (String.ofList_injective h)
    rwa [List.length_replicate, List.length_replicate] at hlength
  recordKeys := List.nodup_nil

def noFilters : ListFilters := ⟨none, none, none, none, none⟩

theorem serialStore_matching (n : ℕ) :
    (serialStore n).matching noFilters = (List.range n).map serialRequest :=
  List.filter_eq_self.mpr fun _ _ => rfl

theorem serialStore_distinct (n : ℕ) :
    (((serialStore n).matching noFilters).map (·.createdAt)).Nodup := by
  rw [serialStore_matching, List.map_map]
  exact serial_nodup (fun _ _ h => h) n

/-- Seven requests are walked by twos. -/
theorem seven_by_twos :
    ∃ received, Receives (serialStore 7) (fun _ => .inserted) noFilters 2 received ∧
      received.Perm (((serialStore 7).matching noFilters).map serializeRequest) :=
  (walk_complete_iff (serialStore 7) (fun _ => .inserted) noFilters 2 (by decide)
    (serialStore_distinct 7)).mpr (.inl (by decide))

/-- A client that asks for 101 requests at a time misses one of 101. -/
theorem last_of_101_missed :
    ¬ ∃ received, Receives (serialStore 101) (fun _ => .inserted) noFilters 101 received ∧
      received.Perm (((serialStore 101).matching noFilters).map serializeRequest) := by
  intro h
  obtain ⟨received, hreceived, hperm⟩ := h
  have hmany : ((serialStore 101).matching noFilters).length = 101 := by
    rw [serialStore_matching, List.length_map, List.length_range]
  have hlt := hreceived.length_lt (by decide) (by omega) (serialStore_distinct 101)
  have hlength := hperm.length_eq
  rw [List.length_map] at hlength
  omega

end TimeOff
