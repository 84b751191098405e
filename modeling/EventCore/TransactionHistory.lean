import Mathlib.Algebra.Order.BigOperators.Group.List
import Mathlib.Data.List.AList
import EventCore.BankLedger

/-! The read model of the bank: balances and holders by account, and a transaction log. On any
ledger that the commands write it shows the exact money, also where the write model does not. -/
namespace EventCore
namespace BankDemo

open MemoryStore Serializability

inductive TransactionEntry
  | opened (accountId : StreamId) (holder : AccountHolder)
  | deposited (accountId : StreamId) (amount : MoneyAmount)
  | withdrawn (accountId : StreamId) (amount : MoneyAmount)
  deriving DecidableEq

def BankEvent.entry : BankEvent → TransactionEntry
  | accountOpened accountId holder => .opened accountId holder
  | moneyDeposited accountId amount => .deposited accountId amount
  | moneyWithdrawn accountId amount => .withdrawn accountId amount

/-- Addition of `i64`; none where it overflows. -/
def addI64 (a b : ℤ) : Option ℤ := if -2^63 ≤ a+b ∧ a+b < 2^63 then some (a+b) else none

/-- `Iterator::sum` at `i64`. -/
def sumI64 (values : List ℤ) : Option ℤ := values.foldlM addI64 0

structure TransactionHistory where
  balances : AList fun _ : StreamId => ℤ
  holders : AList fun _ : StreamId => AccountHolder
  log : List TransactionEntry

namespace TransactionHistory

def default : TransactionHistory := ⟨∅,∅,[]⟩

/-- `*entry.or_insert(0) += cents` -/
def move (self : TransactionHistory) (accountId : StreamId) (cents : ℤ) :
    Option TransactionHistory :=
  (addI64 ((self.balances.lookup accountId).getD 0) cents).map fun balance =>
    { self with balances := self.balances.insert accountId balance }

def record (self : TransactionHistory) : BankEvent → Option TransactionHistory
  | .accountOpened accountId holder => some
      { balances := self.balances.insert accountId ((self.balances.lookup accountId).getD 0)
        holders := self.holders.insert accountId holder
        log := self.log ++ [.opened accountId holder] }
  | .moneyDeposited accountId amount => do
      let moved ← self.move accountId amount.cents.toNat
      return { moved with log := moved.log ++ [.deposited accountId amount] }
  | .moneyWithdrawn accountId amount => do
      let moved ← self.move accountId (-amount.cents.toNat)
      return { moved with log := moved.log ++ [.withdrawn accountId amount] }

def recordAll (events : List BankEvent) : Option TransactionHistory := events.foldlM record default

def balanceOf (self : TransactionHistory) (accountId : StreamId) : Option MoneyAmount := do
  let cents ← self.balances.lookup accountId
  if cents ≤ 0 then none
  else if cents < 2^32 then MoneyAmount.tryNew (UInt32.ofNat cents.toNat)
  else none

def holderOf (self : TransactionHistory) (accountId : StreamId) : Option AccountHolder :=
  self.holders.lookup accountId

/-- The balances, in one of the orders that the hash map may give them in. -/
def values (self : TransactionHistory) : List ℤ := self.balances.entries.map Sigma.snd

def totalBalance (self : TransactionHistory) : Option ℤ := sumI64 self.values

def accountIds (self : TransactionHistory) : List StreamId := self.balances.keys

end TransactionHistory

section Sums

theorem sum_kerase (l : List (Sigma fun _ : StreamId => ℤ)) (accountId : StreamId) :
    ((l.kerase accountId).map Sigma.snd).sum + (l.dlookup accountId).getD 0 =
      (l.map Sigma.snd).sum := by
  induction l with
  | nil => simp
  | cons entry l ih =>
    by_cases h : accountId = entry.1
    · subst h
      rw [List.kerase_cons_eq rfl]
      cases entry
      simp
      omega
    · rw [List.kerase_cons_ne h,List.dlookup_cons_ne _ _ h,List.map_cons,List.map_cons,
        List.sum_cons,List.sum_cons,← ih]
      omega

theorem sum_insert (m : AList fun _ : StreamId => ℤ) (accountId : StreamId) (cents : ℤ) :
    ((m.insert accountId cents).entries.map Sigma.snd).sum + (m.lookup accountId).getD 0 =
      (m.entries.map Sigma.snd).sum + cents := by
  have h := sum_kerase m.entries accountId
  rw [AList.entries_insert,List.map_cons,List.sum_cons]
  simp only [AList.lookup] at h ⊢
  omega

/-- Values that are not negative are summed without overflow, in whatever order, if they fit. -/
theorem sumI64_eq {values : List ℤ} (hpos : ∀ v ∈ values, 0 ≤ v) (hfit : values.sum < 2^63) :
    sumI64 values = some values.sum := by
  suffices h : ∀ start : ℤ, 0 ≤ start → start+values.sum < 2^63 →
      values.foldlM addI64 start = some (start+values.sum) by
    simpa [sumI64] using h 0 le_rfl (by omega)
  intro start hstart hlt
  induction values generalizing start with
  | nil => simp
  | cons v values ih =>
    have hv : 0 ≤ v := hpos v (by simp)
    have hrest : 0 ≤ values.sum := List.sum_nonneg fun u hu => hpos u (by simp [hu])
    rw [List.sum_cons] at hlt hfit ⊢
    have hadd : addI64 start v = some (start+v) := by
      unfold addI64
      rw [if_pos ⟨by omega,by omega⟩]
    rw [List.foldlM_cons,hadd]
    change values.foldlM addI64 (start+v) = _
    rw [ih (fun u hu => hpos u (by simp [hu])) (by omega) (start+v) (by omega) (by omega)]
    congr 1
    omega

end Sums

section Recording

theorem netCents_bound (events : List BankEvent) :
    -(events.length*(2^32-1)) ≤ netCents events ∧ netCents events ≤ events.length*(2^32-1) := by
  induction events with
  | nil => simp
  | cons event events ih =>
    have hevent : -(2^32-1) ≤ event.cents ∧ event.cents ≤ 2^32-1 := by
      cases event with
      | accountOpened accountId holder => simp [BankEvent.cents]
      | moneyDeposited accountId amount =>
        have := amount.cents.toNat_lt
        simp only [BankEvent.cents]
        omega
      | moneyWithdrawn accountId amount =>
        have := amount.cents.toNat_lt
        simp only [BankEvent.cents]
        omega
    have hsum : netCents (event :: events) = event.cents+netCents events := by simp [netCents]
    rw [hsum,List.length_cons]
    push_cast
    omega

/-- What the ledger says of the holder of an account: the last one to open it. -/
def holderIn (accountId : StreamId) (ledger : List BankEvent) : Option AccountHolder :=
  ledger.foldl (fun holder event =>
    match event with
    | .accountOpened opened newHolder => if opened = accountId then some newHolder else holder
    | _ => holder) none

/-- The read model says of every account what the ledger does. -/
structure Recorded (ledger : List BankEvent) (history : TransactionHistory) : Prop where
  balances : ∀ accountId, history.balances.lookup accountId =
    if eventsAt accountId ledger = [] then none else some (netCents (eventsAt accountId ledger))
  holders : ∀ accountId, history.holderOf accountId = holderIn accountId ledger
  values : history.values.sum = netCents ledger
  log : history.log = ledger.map BankEvent.entry

theorem Recorded.lookup {ledger : List BankEvent} {history : TransactionHistory}
    (h : Recorded ledger history) (accountId : StreamId) :
    (history.balances.lookup accountId).getD 0 = netCents (eventsAt accountId ledger) := by
  rw [h.balances]
  split_ifs with hempty
  · simp [hempty]
  · rfl

theorem Recorded.insert {ledger : List BankEvent} {history : TransactionHistory}
    (h : Recorded ledger history) (event : BankEvent) {balance : ℤ}
    (hbalance : balance = netCents (eventsAt event.streamId ledger)+event.cents)
    (holders : AList fun _ : StreamId => AccountHolder)
    (hholders : ∀ accountId, holders.lookup accountId = holderIn accountId (ledger ++ [event])) :
    Recorded (ledger ++ [event])
      ⟨history.balances.insert event.streamId balance,holders,history.log ++ [event.entry]⟩ := by
  refine ⟨fun accountId => ?_,hholders,?_,by simp [h.log]⟩
  · by_cases hid : accountId = event.streamId
    · subst hid
      rw [AList.lookup_insert,if_neg (by simp [eventsAt_singleton_self rfl]),eventsAt_append,
        netCents_append,eventsAt_singleton_self rfl,netCents_singleton,hbalance]
    · rw [AList.lookup_insert_ne hid,h.balances,eventsAt_append,
        eventsAt_singleton_ne (Ne.symm hid),List.append_nil]
  · have hsum := sum_insert history.balances event.streamId balance
    have hvalues := h.values
    rw [h.lookup] at hsum
    simp only [TransactionHistory.values] at hvalues ⊢
    rw [netCents_append,netCents_singleton]
    omega

theorem holderIn_concat (accountId : StreamId) (ledger : List BankEvent) (event : BankEvent) :
    holderIn accountId (ledger ++ [event]) =
      match event with
      | .accountOpened opened newHolder =>
        if opened = accountId then some newHolder else holderIn accountId ledger
      | _ => holderIn accountId ledger := by
  cases event <;> simp [holderIn]

theorem Recorded.record {ledger : List BankEvent} {history : TransactionHistory}
    (h : Recorded ledger history) (event : BankEvent) (hlength : ledger.length+1 < 2^31) :
    ∃ next, history.record event = some next ∧ Recorded (ledger ++ [event]) next := by
  have hadd : addI64 ((history.balances.lookup event.streamId).getD 0) event.cents =
      some (netCents (eventsAt event.streamId ledger)+event.cents) := by
    have hbound := netCents_bound (eventsAt event.streamId ledger ++ [event])
    have hle : (eventsAt event.streamId ledger).length ≤ ledger.length := List.length_filter_le ..
    rw [netCents_append,netCents_singleton,List.length_append,List.length_singleton] at hbound
    rw [h.lookup,addI64,if_pos ⟨by omega,by omega⟩]
  have hholders : ∀ accountId, history.holders.lookup accountId = holderIn accountId ledger :=
    h.holders
  cases event with
  | accountOpened accountId holder =>
    refine ⟨_,rfl,h.insert (.accountOpened accountId holder) ?_ _ fun other => ?_⟩
    · rw [BankEvent.cents,Int.add_zero]
      exact h.lookup accountId
    · rw [holderIn_concat]
      by_cases hid : accountId = other
      · subst hid
        simp
      · simpa [hid,AList.lookup_insert_ne (Ne.symm hid)] using hholders other
  | moneyDeposited accountId amount =>
    have hmove : addI64 ((history.balances.lookup accountId).getD 0) amount.cents.toNat = _ := hadd
    refine ⟨_,?_,h.insert (.moneyDeposited accountId amount) rfl history.holders fun other => ?_⟩
    · simp only [TransactionHistory.record,TransactionHistory.move,hmove]
      rfl
    · rw [holderIn_concat]
      exact hholders other
  | moneyWithdrawn accountId amount =>
    have hmove : addI64 ((history.balances.lookup accountId).getD 0) (-amount.cents.toNat) = _ :=
      hadd
    refine ⟨_,?_,h.insert (.moneyWithdrawn accountId amount) rfl history.holders fun other => ?_⟩
    · simp only [TransactionHistory.record,TransactionHistory.move,hmove]
      rfl
    · rw [holderIn_concat]
      exact hholders other

theorem recorded_default : Recorded [] .default where
  balances _ := rfl
  holders _ := rfl
  values := rfl
  log := rfl

theorem recordAll_recorded {ledger : List BankEvent} (hlength : ledger.length < 2^31) :
    ∃ history, TransactionHistory.recordAll ledger = some history ∧ Recorded ledger history := by
  induction ledger using List.reverseRecOn with
  | nil => exact ⟨.default,rfl,recorded_default⟩
  | append_singleton ledger event ih =>
    rw [List.length_append,List.length_singleton] at hlength
    obtain ⟨history,hhistory,hrecorded⟩ := ih (by omega)
    obtain ⟨next,hnext,hnew⟩ := hrecorded.record event hlength
    refine ⟨next,?_,hnew⟩
    rw [TransactionHistory.recordAll] at hhistory ⊢
    rw [List.foldlM_append,hhistory]
    simpa using hnext

end Recording

namespace AccountHistory

variable {accountId : StreamId} {events : List BankEvent}

/-- The write model is exact until an account first holds more than a `u32` can, and never
after that. -/
theorem balance_eq_iff (h : AccountHistory accountId events) :
    ((AccountState.fold events).balanceCents.toNat : ℤ) = netCents events ↔
      ∀ p, p <+: events → netCents p < 2^32 := by
  have hlonger : ∀ (l : List BankEvent) (e : BankEvent), (∀ p, p <+: l ++ [e] → netCents p < 2^32) ↔
      netCents (l ++ [e]) < 2^32 ∧ ∀ p, p <+: l → netCents p < 2^32 := by
    intro l e
    simp only [List.prefix_concat_iff]
    constructor
    · exact fun hall => ⟨hall _ (.inl rfl),fun p hp => hall p (.inr hp)⟩
    · rintro ⟨hlast,hall⟩ p (rfl | hp)
      · exact hlast
      · exact hall p hp
  induction h with
  | unopened => simp [AccountState.fold,AccountState.default]
  | opened holder =>
    have := hlonger [] (.accountOpened accountId holder)
    rw [List.nil_append] at this
    rw [this]
    simp [AccountState.fold,AccountState.default,AccountState.apply,AccountState.openAccount,
      BankEvent.cents]
  | @deposited events amount hbefore _ ih =>
    have hle := hbefore.balance_le
    rw [hlonger,← show _ ↔ _ from ih]
    simp only [AccountState.fold_concat,AccountState.apply,AccountState.credit,
      toNat_saturatingAdd,netCents_append,netCents_singleton,BankEvent.cents]
    omega
  | @withdrawn events amount hbefore _ hfunds ih =>
    have hle := hbefore.balance_le
    have hlt := (AccountState.fold events).balanceCents.toNat_lt
    rw [hlonger,← show _ ↔ _ from ih]
    simp only [AccountState.fold_concat,AccountState.apply,AccountState.debit,
      toNat_saturatingSub,netCents_append,netCents_singleton,BankEvent.cents]
    omega

theorem holderIn_eq_some (h : AccountHistory accountId events) (holder : AccountHolder) :
    holderIn accountId events = some holder ↔
      ∃ rest, events = .accountOpened accountId holder :: rest := by
  have hconcat : ∀ (l : List BankEvent) (e : BankEvent), l ≠ [] →
      ((∃ rest, l ++ [e] = .accountOpened accountId holder :: rest) ↔
        ∃ rest, l = .accountOpened accountId holder :: rest) := by
    intro l e hne
    obtain ⟨first,l,rfl⟩ := List.exists_cons_of_ne_nil hne
    simp
  induction h with
  | unopened => simp [holderIn]
  | opened first => simp [holderIn]
  | deposited amount _ hne ih =>
    rw [holderIn_concat]
    exact ih.trans (hconcat _ _ hne).symm
  | withdrawn amount _ hne _ ih =>
    rw [holderIn_concat]
    exact ih.trans (hconcat _ _ hne).symm

end AccountHistory

section Showing

variable {ledger : List BankEvent} {history : TransactionHistory}

theorem holderIn_eventsAt (accountId : StreamId) (ledger : List BankEvent) :
    holderIn accountId (eventsAt accountId ledger) = holderIn accountId ledger := by
  induction ledger using List.reverseRecOn with
  | nil => rfl
  | append_singleton ledger event ih =>
    rw [eventsAt_append,holderIn_concat]
    by_cases hid : event.streamId = accountId
    · rw [eventsAt_singleton_self hid,holderIn_concat,ih]
    · rw [eventsAt_singleton_ne hid,List.append_nil,ih]
      cases event with
      | accountOpened opened holder => exact (if_neg hid).symm
      | moneyDeposited other amount => rfl
      | moneyWithdrawn other amount => rfl

theorem Recorded.mem_accountIds (h : Recorded ledger history) (accountId : StreamId) :
    accountId ∈ history.accountIds ↔ eventsAt accountId ledger ≠ [] := by
  rw [TransactionHistory.accountIds,← AList.mem_keys,← not_iff_not,← AList.lookup_eq_none,
    h.balances,not_not]
  split_ifs with hempty <;> simp [hempty]

theorem Recorded.balanceOf_eq_some (h : Recorded ledger history) (accountId : StreamId)
    (amount : MoneyAmount) : history.balanceOf accountId = some amount ↔
      (amount.cents.toNat : ℤ) = netCents (eventsAt accountId ledger) := by
  have hpos := amount.greater
  have hlt := amount.cents.toNat_lt
  rw [TransactionHistory.balanceOf,h.balances]
  by_cases hempty : eventsAt accountId ledger = []
  · simp only [hempty,netCents_nil]
    constructor
    · intro hnone
      cases hnone
    · omega
  · rw [if_neg hempty]
    generalize netCents (eventsAt accountId ledger) = cents
    change (if cents ≤ 0 then none else if cents < 2^32 then
      MoneyAmount.tryNew (UInt32.ofNat cents.toNat) else none) = some amount ↔ _
    by_cases hle : cents ≤ 0
    · simp only [if_pos hle,reduceCtorEq,false_iff]
      omega
    · by_cases hfit : cents < 2^32
      · have hcents : (UInt32.ofNat cents.toNat).toNat = cents.toNat := by
          rw [UInt32.toNat_ofNat',Nat.mod_eq_of_lt (by omega)]
        rw [if_neg hle,if_pos hfit,MoneyAmount.tryNew,dif_pos (by omega),Option.some_inj,
          MoneyAmount.ext_iff,← UInt32.toNat_inj,hcents]
        omega
      · simp only [if_neg hle,if_neg hfit,reduceCtorEq,false_iff]
        omega

theorem Recorded.total (h : Recorded ledger history)
    (hpos : ∀ accountId, 0 ≤ netCents (eventsAt accountId ledger)) (hlength : ledger.length < 2^31)
    {values : List ℤ} (hvalues : values.Perm history.values) :
    sumI64 values = some (netCents ledger) := by
  have hbound := netCents_bound ledger
  rw [← h.values,← hvalues.sum_eq] at hbound ⊢
  refine sumI64_eq (fun v hv => ?_) (by omega)
  obtain ⟨entry,hentry,rfl⟩ := List.mem_map.mp (hvalues.subset hv)
  have hlookup := h.balances entry.1
  rw [AList.lookup,List.mem_dlookup history.balances.nodupKeys hentry] at hlookup
  split_ifs at hlookup with hempty
  exact Option.some.inj hlookup ▸ hpos entry.1

end Showing

section Bank

variable {Any Raw Value : Type} {codec : BankCodec Any Raw} {ι : Type} [DecidableEq ι]
  {nowV7 : ℕ → Uuid} {commands : ι → BankCommand} {policies : ι → RetryPolicy}

/-- Whatever the interleaving, and wherever in the ledger the read model stands: it has not
overflowed, lists every account that the ledger names and lists it once, shows its exact money
wherever an amount can say it, names the holder that opened it, and sums up, in any order, to the
money in the ledger; the write model of an account agrees with it until the account first exceeds
a `u32`, and only until then. -/
theorem read_model_exact
    {w : World ι Any Raw Value (fun _ => BankEvent) fun i => (commands i).State}
    (h : Runs.Reachable (bank codec nowV7 commands policies) w) :
    ∃ ledger, Books codec w.store ledger ∧
      ∀ earlier, earlier <+: ledger → earlier.length < 2^31 →
        ∃ history, TransactionHistory.recordAll earlier = some history ∧
          history.log = earlier.map BankEvent.entry ∧
          (∀ values : List ℤ, values.Perm history.values →
            sumI64 values = some (netCents earlier)) ∧
          history.accountIds.Nodup ∧ ∀ accountId,
            (accountId ∈ history.accountIds ↔ eventsAt accountId earlier ≠ []) ∧
            (∀ holder, history.holderOf accountId = some holder ↔
              ∃ rest, eventsAt accountId earlier = .accountOpened accountId holder :: rest) ∧
            (∀ amount, history.balanceOf accountId = some amount ↔
              (amount.cents.toNat : ℤ) = netCents (eventsAt accountId earlier)) ∧
            (((AccountState.fold (eventsAt accountId earlier)).balanceCents.toNat : ℤ) =
                netCents (eventsAt accountId earlier) ↔
              ∀ p, p <+: eventsAt accountId earlier → netCents p < 2^32) := by
  obtain ⟨ledger,haccount⟩ := account_of_reachable h
  refine ⟨ledger,haccount.books,fun earlier hearlier hlength => ?_⟩
  have hhistory : ∀ accountId, AccountHistory accountId (eventsAt accountId earlier) :=
    fun accountId => (haccount.books.accounts accountId).prefix_closed (hearlier.filter _)
  have hpos : ∀ accountId, 0 ≤ netCents (eventsAt accountId earlier) :=
    fun accountId => (Int.natCast_nonneg _).trans (hhistory accountId).balance_le
  obtain ⟨history,hrecord,hrecorded⟩ := recordAll_recorded hlength
  refine ⟨history,hrecord,hrecorded.log,fun values => hrecorded.total hpos hlength,
    history.balances.keys_nodup,fun accountId => ⟨hrecorded.mem_accountIds accountId,
      fun holder => ?_,hrecorded.balanceOf_eq_some accountId,(hhistory accountId).balance_eq_iff⟩⟩
  rw [hrecorded.holders,← holderIn_eventsAt]
  exact (hhistory accountId).holderIn_eq_some holder

/-- After the race the balances sum up to the deposit. -/
theorem read_model_exact_race :
    ∃ w, Runs.exec smallBank
        (World.start (fun i => (oneDepositTwoTransfers i).logic plainCodec) (fun _ => {}) .new)
        (racingTransfers 0 1 2 3 4) = some w ∧
      ∃ ledger history, Books plainCodec w.store ledger ∧
        TransactionHistory.recordAll ledger = some history ∧
        history.totalBalance = some (netCents ledger) := by
  obtain ⟨w,hw,-,hlog⟩ := exists_racingTransfers
  obtain ⟨ledger,hbooks,hall⟩ :=
    read_model_exact (Runs.Reachable.exec (Runs.ReachableBy.init rfl) hw)
  have hlength : ledger.length < 2^31 := by
    rw [hbooks.logged.length_eq,hlog]
    decide
  obtain ⟨history,hrecord,-,htotal,-⟩ := hall ledger List.prefix_rfl hlength
  exact ⟨w,hw,ledger,history,hbooks,hrecord,htotal _ (List.Perm.refl _)⟩

end Bank

end BankDemo
end EventCore
