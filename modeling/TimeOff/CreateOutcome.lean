import TimeOff.CreateAlone

/-! When a `createRequest` that runs alone succeeds, in the calendar's terms. -/
namespace TimeOff

open Async

section Calendar

def today (now : ℕ) : ℤ := (now : ℤ) / msPerDay

variable {cfg : Config} {dto : CreateTimeOffRequestDto} {s e : ℤ} {now : ℕ}

theorem mul_msPerDay_le {a b : ℤ} : a * msPerDay ≤ b * msPerDay ↔ a ≤ b := by
  unfold msPerDay
  omega

theorem isNotInPast_plain {dateStr : String} {k : ℤ} (hk : PlainDay dateStr k)
    (hnow : day2000 ≤ today now) : isNotInPast dateStr now = true ↔ today now ≤ k := by
  obtain ⟨k', hsplit, hcases⟩ := hk.split
  have hcmp : isNotInPast dateStr now = true ↔ today now ≤ k' := by
    unfold isNotInPast
    rw [hsplit]
    exact decide_eq_true_iff.trans mul_msPerDay_le
  rw [hcmp]
  rcases hcases with rfl | ⟨hlt', hlt⟩
  · rfl
  · omega

theorem ltTime_plain (cfg : Config) (hs : PlainDay dto.startDate s) (he : PlainDay dto.endDate e) :
    ltTime (parseMidnight cfg dto.endDate) (parseMidnight cfg dto.startDate) = true ↔ e < s := by
  rw [hs.parse, he.parse]
  unfold ltTime
  rw [decide_eq_true_iff]
  unfold msPerDay
  omega

/-- With plain dates and a clock from 2000 on, step 1 accepts a range from today on, and its
days are those of the calendar. -/
theorem validateDates_plain (cfg : Config) (hs : PlainDay dto.startDate s)
    (he : PlainDay dto.endDate e)
    (hnow : day2000 ≤ today now) :
    ((today now ≤ s ∧ s ≤ e) ∧ validateDates cfg dto now = .ok (some ((e - s + 1 : ℤ) : ℚ))) ∨
      (¬ (today now ≤ s ∧ s ≤ e) ∧ ∃ error, validateDates cfg dto now = .error error) := by
  have hpast := isNotInPast_plain hs hnow
  have hlt := ltTime_plain cfg hs he
  unfold validateDates
  -- the validation asks for both: not in the past, and in order
  by_cases hp : today now ≤ s
  · have htrue := hpast.mpr hp
    by_cases hle : s ≤ e
    · left
      have hfalse : ltTime (parseMidnight cfg dto.endDate) (parseMidnight cfg dto.startDate) =
          false := Bool.eq_false_iff.mpr fun h => absurd (hlt.mp h) (not_lt.mpr hle)
      obtain ⟨k, hk, hdays⟩ := calculateDaysRequested_eq
        (hs.split_of_le (hnow.trans hp)) (he.split_of_le (hnow.trans (hp.trans hle)))
      have hkes : k = e - s := by
        unfold msPerDay at hk
        omega
      have hmax : max k 0 + 1 = e - s + 1 := by omega
      refine ⟨⟨hp, hle⟩, ?_⟩
      rw [htrue, hfalse, hdays, hmax]
      rfl
    · right
      refine ⟨fun h => hle h.2, ?_⟩
      rw [htrue, hlt.mpr (not_le.mp hle)]
      exact ⟨_, rfl⟩
  · right
    have hfalse : isNotInPast dto.startDate now = false :=
      Bool.eq_false_iff.mpr fun h => hp (hpast.mp h)
    refine ⟨fun h => hp h.1, ?_⟩
    rw [hfalse]
    exact ⟨_, rfl⟩

/-- The request is for the `k`th day. -/
def CoversDay (r : TimeOffRequest) (k : ℤ) : Prop :=
  ∃ first last, PlainDay r.startDate first ∧ PlainDay r.endDate last ∧ first ≤ k ∧ k ≤ last

theorem PlainDay.unique {str : String} {k k' : ℤ} (h : PlainDay str k) (h' : PlainDay str k') :
    k = k' := by
  obtain ⟨y, m, d, hplain, rfl⟩ := h
  obtain ⟨y', m', d', hplain', rfl⟩ := h'
  obtain ⟨rfl, rfl, rfl⟩ : y = y' ∧ m = m' ∧ d = d' := by
    have heq := Option.some.inj (hplain.symm.trans hplain')
    exact ⟨congrArg Prod.fst heq, congrArg (fun p => p.2.1) heq, congrArg (fun p => p.2.2) heq⟩
  rfl

/-- Two ranges overlap exactly when they share a day. -/
theorem datesOverlap_plain {r : TimeOffRequest} {first last : ℤ}
    (hs : PlainDay dto.startDate s) (he : PlainDay dto.endDate e)
    (hfirst : PlainDay r.startDate first) (hlast : PlainDay r.endDate last)
    (hs2000 : day2000 ≤ s) (hse : s ≤ e) (hrange : first ≤ last) :
    datesOverlap dto.startDate dto.endDate r.startDate r.endDate = true ↔
      ∃ k, s ≤ k ∧ k ≤ e ∧ CoversDay r k := by
  obtain ⟨first', hsplit, hcases⟩ := hfirst.split
  obtain ⟨last', hsplit', hcases'⟩ := hlast.split
  -- the check compares the days as `splitDateUTC` reads them
  have hcmp : datesOverlap dto.startDate dto.endDate r.startDate r.endDate = true ↔
      s ≤ last' ∧ first' ≤ e := by
    unfold datesOverlap
    rw [hsplit, hsplit', hs.split_of_le hs2000, he.split_of_le (hs2000.trans hse)]
    rw [Bool.and_eq_true]
    exact and_congr (decide_eq_true_iff.trans mul_msPerDay_le)
      (decide_eq_true_iff.trans mul_msPerDay_le)
  -- from 2000 on it reads every day as named
  have hsame : (s ≤ last' ∧ first' ≤ e) ↔ s ≤ last ∧ first ≤ e := by
    constructor
    · intro h
      omega
    · intro h
      omega
  rw [hcmp, hsame]
  constructor
  -- a common day is the later of the two starts
  · intro h
    refine ⟨max s first, le_max_left _ _, max_le hse h.2, first, last, hfirst, hlast,
      le_max_right _ _, max_le h.1 hrange⟩
  · intro h
    obtain ⟨k, hsk, hke, first₁, last₁, h1, h2, hk1, hk2⟩ := h
    obtain rfl := h1.unique hfirst
    obtain rfl := h2.unique hlast
    exact ⟨hsk.trans hk2, hk1.trans hke⟩

end Calendar

section Outcome

variable {cfg : Config} {dto : CreateTimeOffRequestDto} {idempotencyKey : String} {s e : ℤ}
  {i : ℕ} {w : World}

/-- The active requests of the employee and location run from one plain date to a later or the
same one. -/
def RowsInOrder (dto : CreateTimeOffRequestDto) (w : World) : Prop :=
  ∀ r ∈ w.store.requests, r.employeeId = dto.employeeId → r.locationId = dto.locationId →
    isActive r = true →
      ∃ first last, PlainDay r.startDate first ∧ PlainDay r.endDate last ∧ first ≤ last

/-- The condition of a request from day `s` to day `e`. -/
structure Creatable (dto : CreateTimeOffRequestDto) (s e : ℤ) (w : World) : Prop where
  notPast : today w.clock ≤ s
  ordered : s ≤ e
  free : ∀ r ∈ w.store.requests, r.employeeId = dto.employeeId → r.locationId = dto.locationId →
    isActive r = true → ∀ k, s ≤ k → k ≤ e → ¬ CoversDay r k
  enough : ∃ b ∈ w.store.balances, b.key = dto.balanceKey ∧
    ((e - s + 1 : ℤ) : ℚ) ≤ b.availableBalance

/-- The row of the request's key moves the days from available to pending, and one PENDING
request and one record of the key are added. -/
structure Created (dto : CreateTimeOffRequestDto) (idempotencyKey : String) (days : ℚ)
    (s s' : Store) : Prop where
  balances : s'.balances = s.balances.map fun b =>
    if b.key = dto.balanceKey then
      { b with
        availableBalance := b.availableBalance - days
        pendingBalance := b.pendingBalance + days
        version := b.version + 1 }
    else b
  request : ∃ r, s'.requests = s.requests ++ [r] ∧ r.idempotencyKey = idempotencyKey ∧
    r.status = .pending ∧ r.employeeId = dto.employeeId ∧ r.locationId = dto.locationId ∧
    r.leaveType = dto.leaveType ∧ r.startDate = dto.startDate ∧ r.endDate = dto.endDate ∧
    r.daysRequested = days
  record : ∃ record, s'.records = s.records ++ [record] ∧ record.idempotencyKey = idempotencyKey

theorem mem_activeRequests {st : Store} {employeeId locationId : String} {a : ActiveRequest} :
    a ∈ st.activeRequests employeeId locationId ↔
      ∃ r ∈ st.requests, r.employeeId = employeeId ∧ r.locationId = locationId ∧
        isActive r = true ∧ a = ⟨r.id, r.startDate, r.endDate, r.status⟩ := by
  unfold Store.activeRequests
  simp only [List.mem_map, List.mem_filter, Bool.and_eq_true, decide_eq_true_eq]
  constructor
  · intro h
    obtain ⟨r, ⟨hr, ⟨he, hl⟩, hactive⟩, rfl⟩ := h
    exact ⟨r, hr, he, hl, hactive, rfl⟩
  · intro h
    obtain ⟨r, hr, he, hl, hactive, rfl⟩ := h
    exact ⟨r, ⟨hr, ⟨he, hl⟩, hactive⟩, rfl⟩

/-- What the transaction needs is what the calendar says. -/
theorem bookable_iff_creatable (hs : PlainDay dto.startDate s) (he : PlainDay dto.endDate e)
    (hnow : day2000 ≤ today w.clock) (hrows : RowsInOrder dto w) (hpast : today w.clock ≤ s)
    (hse : s ≤ e) : Bookable dto ((e - s + 1 : ℤ) : ℚ) w.store ↔ Creatable dto s e w := by
  have hover {r : TimeOffRequest} (hr : r ∈ w.store.requests)
      (hemp : r.employeeId = dto.employeeId) (hloc : r.locationId = dto.locationId)
      (hactive : isActive r = true) :
      datesOverlap dto.startDate dto.endDate r.startDate r.endDate = true ↔
        ∃ k, s ≤ k ∧ k ≤ e ∧ CoversDay r k := by
    obtain ⟨first, last, hfirst, hlast, hrange⟩ := hrows r hr hemp hloc hactive
    exact datesOverlap_plain hs he hfirst hlast (hnow.trans hpast) hse hrange
  constructor
  -- no active request covers a day, and one row has the days
  · intro h
    obtain ⟨b, hb, henough⟩ := h.enough
    obtain ⟨hmem, hkey⟩ := Store.balance?_eq_some.mp hb
    refine ⟨hpast, hse, ?_, b, hmem, hkey, henough⟩
    intro r hr hemp hloc hactive k hsk hke hcovers
    have hfree := h.free _ (mem_activeRequests.mpr ⟨r, hr, hemp, hloc, hactive, rfl⟩)
    have htrue := (hover hr hemp hloc hactive).mpr ⟨k, hsk, hke, hcovers⟩
    dsimp only at hfree
    rw [hfree] at htrue
    cases htrue
  -- a conflict found by the check would cover a day of the request
  · intro h
    obtain ⟨b, hmem, hkey, henough⟩ := h.enough
    refine ⟨?_, b, Store.balance?_eq_some.mpr ⟨hmem, hkey⟩, henough⟩
    intro a ha
    obtain ⟨r, hr, hemp, hloc, hactive, rfl⟩ := mem_activeRequests.mp ha
    apply Bool.eq_false_iff.mpr
    intro htrue
    obtain ⟨k, hsk, hke, hcovers⟩ := (hover hr hemp hloc hactive).mp htrue
    exact h.free r hr hemp hloc hactive k hsk hke hcovers

theorem created_of_effect {requestHash : String} {days : ℚ} {now id : ℕ} {st st' : Store}
    {saved : TimeOffRequest} {b : EmployeeBalance}
    (h : CreateEffect cfg dto idempotencyKey days requestHash now id st st' saved b) :
    Created dto idempotencyKey days st st' := by
  obtain ⟨hmem, hkey⟩ := Store.balance?_eq_some.mp h.balance
  have hrow := h.row
  obtain ⟨days', hdays, rfl⟩ := Option.map_eq_some_iff.mp hrow
  obtain rfl : days = days' := Option.some.inj hdays
  refine ⟨?_, ⟨_, h.requests, rfl, rfl, rfl, rfl, rfl, rfl, rfl, rfl⟩, ⟨_, h.records, rfl⟩⟩
  rw [h.balances]
  refine List.map_congr_left fun x hx => ?_
  by_cases hxk : x.key = dto.balanceKey
  · -- the row of the key is the row that the transaction loaded
    have hxb : x = b := by
      have hfind := Store.balance?_eq_some.mpr ⟨hx, hxk⟩
      exact Option.some.inj (hfind.symm.trans h.balance)
    rw [if_pos hxk, if_pos hxk, hxb]
    rfl
  · rw [if_neg hxk, if_neg hxk]

/-- A call with a fresh key that runs alone succeeds exactly under the calendar's condition;
it then leaves what it should, and otherwise the tables as they were. -/
theorem createRequest_alone (cfg : Config) (dto : CreateTimeOffRequestDto)
    (idempotencyKey : String) (i : ℕ) (w : World) (s e : ℤ) (hne : idempotencyKey ≠ "")
    (hfresh : Fresh idempotencyKey w) (hlane : LaneFree i dto w)
    (hs : PlainDay dto.startDate s) (he : PlainDay dto.endDate e)
    (hnow : day2000 ≤ today w.clock) (hrows : RowsInOrder dto w) :
    ∃ r w', (createRequest cfg dto idempotencyKey).eval (Op.quiet i) w = some (r, w') ∧
      ((∃ body, r = .ok body) ↔ Creatable dto s e w) ∧
      (∀ body, r = .ok body → Created dto idempotencyKey ((e - s + 1 : ℤ) : ℚ) w.store w'.store) ∧
      ∀ err, r = .error err → w'.store = w.store := by
  have hnowEval : (createRequest cfg dto idempotencyKey).eval (Op.quiet i) w =
      (proceed cfg dto idempotencyKey (validateDates cfg dto w.clock)).eval (Op.quiet i) w := by
    rw [createRequest_eq cfg dto hne]
    exact svc_eval_base rfl
  rw [hnowEval]
  rcases validateDates_plain cfg hs he hnow with ⟨⟨hpast, hse⟩, hok⟩ | ⟨hnot, err, herr⟩
  · rw [hok]
    have hcheck : (proceed cfg dto idempotencyKey (.ok (some ((e - s + 1 : ℤ) : ℚ)))).eval
        (Op.quiet i) w = (withCreateLock (lockKey dto) (createLocked cfg dto idempotencyKey
          (some ((e - s + 1 : ℤ) : ℚ)) (cfg.hashObject dto))).eval (Op.quiet i) w :=
      Prog.eval_bind_ok (checkIdempotency_quiet hfresh.record dto.employeeId)
    rw [hcheck]
    -- the dates pass, so that the rest is up to the balance and the other requests
    have hiff := bookable_iff_creatable hs he hnow hrows hpast hse
    apply withCreateLock_quiet (P := fun r st =>
      ((∃ body, r = .ok body) ↔ Creatable dto s e w) ∧
      (∀ body, r = .ok body → Created dto idempotencyKey ((e - s + 1 : ℤ) : ℚ) w.store st) ∧
      ∀ err, r = .error err → st = w.store) hlane
    intro locks
    by_cases hbook : Bookable dto ((e - s + 1 : ℤ) : ℚ) w.store
    · obtain ⟨body, u, saved, b, heval, heff⟩ := createLocked_commits (i := i)
        (w := { w with locks := locks }) cfg (cfg.hashObject dto) ⟨hfresh.id, hfresh.key,
          hfresh.record⟩ hbook
      refine ⟨_, u, heval, ?_, ?_, ?_⟩
      · exact ⟨fun _ => hiff.mp hbook, fun _ => ⟨body, rfl⟩⟩
      · intro _ _
        exact created_of_effect heff
      · intro err herr
        cases herr
    · obtain ⟨err, u, heval, hstore⟩ := createLocked_fails (i := i)
        (w := { w with locks := locks }) cfg (cfg.hashObject dto) hfresh.record hfresh.key hbook
      refine ⟨_, u, heval, ?_, ?_, fun _ _ => hstore⟩
      · constructor
        · intro h
          obtain ⟨body, hbody⟩ := h
          cases hbody
        · intro h
          exact absurd (hiff.mpr h) hbook
      · intro body hbody
        cases hbody
  -- the dates are refused before anything is read
  · rw [herr]
    refine ⟨.error (.service err), w, rfl, ?_, ?_, fun _ _ => rfl⟩
    · constructor
      · intro h
        obtain ⟨body, hbody⟩ := h
        cases hbody
      · intro h
        exact absurd ⟨h.notPast, h.ordered⟩ hnot
    · intro body hbody
      cases hbody

/-- Ten days available at the start of 2030. -/
def tenDaysAt (clock : ℕ) : World :=
  World.init (.ofBalance ⟨plainKey, 10, 10, 0, 0, 10, none, none, false, none, 1⟩) clock 0
    (.init [])

theorem creates_two_days_of_2030 :
    ∃ r w', (createRequest plainConfig (plainDto "2030-01-06" "2030-01-07") "key-1").eval
        (Op.quiet 0) (tenDaysAt 1893456000000) = some (r, w') ∧
      ((∃ body, r = .ok body) ↔ Creatable (plainDto "2030-01-06" "2030-01-07") 21920 21921
        (tenDaysAt 1893456000000)) ∧
      (∀ body, r = .ok body → Created (plainDto "2030-01-06" "2030-01-07") "key-1"
        ((21921 - 21920 + 1 : ℤ) : ℚ) (tenDaysAt 1893456000000).store w'.store) ∧
      ∀ err, r = .error err → w'.store = (tenDaysAt 1893456000000).store := by
  have hfirst : PlainDay "2030-01-06" 21920 := ⟨2030, 1, 6, by decide +kernel, by decide +kernel⟩
  have hlast : PlainDay "2030-01-07" 21921 := ⟨2030, 1, 7, by decide +kernel, by decide +kernel⟩
  exact createRequest_alone plainConfig (plainDto "2030-01-06" "2030-01-07") "key-1" 0
    (tenDaysAt 1893456000000) 21920 21921 (by decide) ⟨rfl, rfl, rfl⟩ rfl hfirst hlast
    (by decide +kernel) fun r hr => (nomatch hr)

/-- Ten days available in 2030, and a stored request that runs backwards. -/
def backwards : World :=
  { tenDaysAt 1893456000000 with
    store :=
      { Store.ofBalance ⟨plainKey, 10, 10, 0, 0, 10, none, none, false, none, 1⟩ with
        requests :=
          [⟨7, "key-0", "EMP123", "LOC1", "VACATION", "2030-01-09", "2030-01-03", 1, .pending,
            "EMP123", none, none, none, none, false, .pending, 0, none, 1, 0, 0⟩]
        requestIds := List.nodup_singleton _
        requestKeys := List.nodup_singleton _ } }

/-- With a clock of 1995 a request in the year 99 succeeds, which is past; and a stored request
that runs backwards has no day, but stops a request around it. -/
theorem two_digit_year_created :
    (∃ r w', (createRequest plainConfig (plainDto "0099-01-06" "0099-01-07") "key-1").eval
        (Op.quiet 0) (tenDaysAt 788918400000) = some (r, w') ∧ (∃ body, r = .ok body) ∧
      ∀ s e, PlainDay "0099-01-06" s → PlainDay "0099-01-07" e →
        ¬ Creatable (plainDto "0099-01-06" "0099-01-07") s e (tenDaysAt 788918400000)) ∧
      ∃ r w', (createRequest plainConfig (plainDto "2030-01-02" "2030-01-10") "key-1").eval
        (Op.quiet 0) backwards = some (r, w') ∧ (¬ ∃ body, r = .ok body) ∧
      ∀ s e, PlainDay "2030-01-02" s → PlainDay "2030-01-10" e →
        Creatable (plainDto "2030-01-02" "2030-01-10") s e backwards := by
  refine ⟨?_, ?_⟩
  · have hends : ((createRequest plainConfig (plainDto "0099-01-06" "0099-01-07") "key-1").eval
        (Op.quiet 0) (tenDaysAt 788918400000)).map (fun r => r.1.isOk) = some true := by
      decide +kernel
    obtain ⟨⟨r, w'⟩, heval, hok⟩ := Option.map_eq_some_iff.mp hends
    refine ⟨r, w', heval, ?_, ?_⟩
    · cases r with
      | ok body => exact ⟨body, rfl⟩
      | error err => cases hok
    · intro s e hs _ hcreatable
      have hday : PlainDay "0099-01-06" (-683363) :=
        ⟨99, 1, 6, by decide +kernel, by decide +kernel⟩
      have hpast := hcreatable.notPast
      rw [hs.unique hday] at hpast
      exact absurd hpast (by decide +kernel)
  · have hends : ((createRequest plainConfig (plainDto "2030-01-02" "2030-01-10") "key-1").eval
        (Op.quiet 0) backwards).map (fun r => r.1.isOk) = some false := by decide +kernel
    obtain ⟨⟨r, w'⟩, heval, hok⟩ := Option.map_eq_some_iff.mp hends
    refine ⟨r, w', heval, ?_, ?_⟩
    · intro hbody
      obtain ⟨body, rfl⟩ := hbody
      cases hok
    · intro s e hs he
      have hfirst : PlainDay "2030-01-02" 21916 :=
        ⟨2030, 1, 2, by decide +kernel, by decide +kernel⟩
      have hlast : PlainDay "2030-01-10" 21924 :=
        ⟨2030, 1, 10, by decide +kernel, by decide +kernel⟩
      rw [hs.unique hfirst, he.unique hlast]
      refine ⟨by decide +kernel, by decide, ?_, _, List.mem_singleton.mpr rfl, rfl,
        by decide +kernel⟩
      intro row hrow _ _ _ k _ _ hcovers
      obtain rfl := List.mem_singleton.mp hrow
      -- the stored request starts on the 9th and ends on the 3rd
      obtain ⟨first, last, hf, hl, hk, hk'⟩ := hcovers
      have h9 : PlainDay "2030-01-09" 21923 := ⟨2030, 1, 9, by decide +kernel, by decide +kernel⟩
      have h3 : PlainDay "2030-01-03" 21917 := ⟨2030, 1, 3, by decide +kernel, by decide +kernel⟩
      have hfirst9 : first = 21923 := hf.unique h9
      have hlast3 : last = 21917 := hl.unique h3
      omega

end Outcome

end TimeOff
