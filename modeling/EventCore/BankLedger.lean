import Mathlib.Algebra.Ring.Int.Defs
import EventCore.BankAccounts
import EventCore.SequentialCommands

/-! The bank under any interleaving of its commands: a ledger of events in which every account
is opened once, first of all, and never overdrawn, and in which money only moves in and out as
the successful deposits and withdrawals say. -/
namespace EventCore
namespace BankDemo

open MemoryStore Serializability SequentialCommands DeriveCommand

def eventsAt (accountId : StreamId) (ledger : List BankEvent) : List BankEvent :=
  ledger.filter fun event => event.streamId = accountId

@[simp] theorem eventsAt_append (accountId : StreamId) (ledger more : List BankEvent) :
    eventsAt accountId (ledger ++ more) = eventsAt accountId ledger ++ eventsAt accountId more :=
  List.filter_append ..

@[simp] theorem eventsAt_nil (accountId : StreamId) : eventsAt accountId [] = [] := rfl

theorem eventsAt_singleton_self {accountId : StreamId} {event : BankEvent}
    (h : event.streamId = accountId) : eventsAt accountId [event] = [event] := by
  simp [eventsAt,h]

theorem eventsAt_singleton_ne {accountId : StreamId} {event : BankEvent}
    (h : event.streamId ≠ accountId) : eventsAt accountId [event] = [] := by
  simp [eventsAt,h]

namespace BankEvent

def cents : BankEvent → ℤ
  | accountOpened .. => 0
  | moneyDeposited _ amount => amount.cents.toNat
  | moneyWithdrawn _ amount => -amount.cents.toNat

end BankEvent

def netCents (events : List BankEvent) : ℤ := (events.map BankEvent.cents).sum

@[simp] theorem netCents_nil : netCents [] = 0 := rfl

@[simp] theorem netCents_append (events more : List BankEvent) :
    netCents (events ++ more) = netCents events + netCents more := by
  simp [netCents]

@[simp] theorem netCents_singleton (event : BankEvent) : netCents [event] = event.cents := by
  simp [netCents]

theorem AccountState.fold_concat (events : List BankEvent) (event : BankEvent) :
    AccountState.fold (events ++ [event]) = (AccountState.fold events).apply event := by
  simp [AccountState.fold]

inductive AccountHistory (accountId : StreamId) : List BankEvent → Prop
  | unopened : AccountHistory accountId []
  | opened (holder : AccountHolder) : AccountHistory accountId [.accountOpened accountId holder]
  | deposited {events : List BankEvent} (amount : MoneyAmount) : AccountHistory accountId events →
      events ≠ [] → AccountHistory accountId (events ++ [.moneyDeposited accountId amount])
  | withdrawn {events : List BankEvent} (amount : MoneyAmount) : AccountHistory accountId events →
      events ≠ [] → amount.cents.toNat ≤ (AccountState.fold events).balanceCents.toNat →
      AccountHistory accountId (events ++ [.moneyWithdrawn accountId amount])

namespace AccountHistory

variable {accountId : StreamId} {events : List BankEvent}

theorem isOpen_iff (h : AccountHistory accountId events) :
    (AccountState.fold events).isOpen = true ↔ events ≠ [] := by
  induction h with
  | unopened => simp [AccountState.fold,AccountState.default]
  | opened holder => simp [AccountState.fold,AccountState.apply,AccountState.openAccount]
  | deposited amount _ hne ih =>
    simp only [AccountState.fold_concat,AccountState.apply,AccountState.credit]
    simp [ih,hne]
  | withdrawn amount _ hne _ ih =>
    simp only [AccountState.fold_concat,AccountState.apply,AccountState.debit]
    simp [ih,hne]

theorem balance_le (h : AccountHistory accountId events) :
    ((AccountState.fold events).balanceCents.toNat : ℤ) ≤ netCents events := by
  induction h with
  | unopened => simp [AccountState.fold,AccountState.default]
  | opened holder =>
    simp [AccountState.fold,AccountState.apply,AccountState.openAccount,AccountState.default,
      BankEvent.cents]
  | deposited amount _ _ ih =>
    simp only [AccountState.fold_concat,AccountState.apply,AccountState.credit,
      toNat_saturatingAdd,netCents_append,netCents_singleton,BankEvent.cents]
    omega
  | withdrawn amount _ _ hle ih =>
    simp only [AccountState.fold_concat,AccountState.apply,AccountState.debit,
      toNat_saturatingSub,netCents_append,netCents_singleton,BankEvent.cents]
    omega

theorem prefix_closed (h : AccountHistory accountId events) {p : List BankEvent}
    (hp : p <+: events) : AccountHistory accountId p := by
  induction h with
  | unopened =>
    rw [List.prefix_nil.mp hp]
    exact .unopened
  | opened holder =>
    cases p with
    | nil => exact .unopened
    | cons e p =>
      obtain ⟨rfl,hrest⟩ := List.cons_prefix_cons.mp hp
      rw [List.prefix_nil.mp hrest]
      exact .opened holder
  | deposited amount hbefore hne ih =>
    rcases List.prefix_concat_iff.mp hp with rfl | hp
    · exact hbefore.deposited amount hne
    · exact ih hp
  | withdrawn amount hbefore hne hle ih =>
    rcases List.prefix_concat_iff.mp hp with rfl | hp
    · exact hbefore.withdrawn amount hne hle
    · exact ih hp

theorem opened_once (h : AccountHistory accountId events) (hne : events ≠ []) :
    ∃ holder rest, events = .accountOpened accountId holder :: rest ∧
      ∀ event ∈ rest, event.cents ≠ 0 := by
  induction h with
  | unopened => exact absurd rfl hne
  | opened holder => exact ⟨holder,[],rfl,by simp⟩
  | deposited amount _ hbefore ih =>
    obtain ⟨holder,rest,rfl,hrest⟩ := ih hbefore
    refine ⟨holder,rest ++ [.moneyDeposited accountId amount],rfl,?_⟩
    intro event hevent
    rcases List.mem_append.mp hevent with hevent | hevent
    · exact hrest event hevent
    · rw [List.mem_singleton.mp hevent]
      have := amount.greater
      simp only [BankEvent.cents]
      omega
  | withdrawn amount _ hbefore _ ih =>
    obtain ⟨holder,rest,rfl,hrest⟩ := ih hbefore
    refine ⟨holder,rest ++ [.moneyWithdrawn accountId amount],rfl,?_⟩
    intro event hevent
    rcases List.mem_append.mp hevent with hevent | hevent
    · exact hrest event hevent
    · rw [List.mem_singleton.mp hevent]
      have := amount.greater
      simp only [BankEvent.cents]
      omega

end AccountHistory

section Commands

variable {Any Raw Value : Type} {codec : BankCodec Any Raw}

/-- The store holds exactly this ledger, in its log and in the streams of the accounts. -/
structure Books (codec : BankCodec Any Raw) (store : StoreData Any Raw Value)
    (ledger : List BankEvent) : Prop where
  logged : List.Forall₂ (IsLogged codec.event) ledger store.globalLog
  streams : ∀ accountId, store.streamEvents accountId = (eventsAt accountId ledger).map codec.box
  accounts : ∀ accountId, AccountHistory accountId (eventsAt accountId ledger)

theorem books_new : Books codec (.new : StoreData Any Raw Value) [] where
  logged := .nil
  streams _ := rfl
  accounts _ := .unopened

inductive Writes (ledger : List BankEvent) : BankCommand → List BankEvent → Prop
  | openAccount (command : OpenAccount) : eventsAt command.accountId ledger = [] →
      Writes ledger (.openAccount command) [.accountOpened command.accountId command.holder]
  | deposit (command : Deposit) : eventsAt command.accountId ledger ≠ [] →
      Writes ledger (.deposit command) [.moneyDeposited command.accountId command.amount]
  | withdraw (command : Withdraw) : eventsAt command.accountId ledger ≠ [] →
      command.amount.cents.toNat ≤
        (AccountState.fold (eventsAt command.accountId ledger)).balanceCents.toNat →
      Writes ledger (.withdraw command) [.moneyWithdrawn command.accountId command.amount]
  | transfer (command : Transfer) : command.fromAccount ≠ command.toAccount →
      eventsAt command.fromAccount ledger ≠ [] → eventsAt command.toAccount ledger ≠ [] →
      command.amount.cents.toNat ≤
        (AccountState.fold (eventsAt command.fromAccount ledger)).balanceCents.toNat →
      Writes ledger (.transfer command) [.moneyWithdrawn command.fromAccount command.amount,
        .moneyDeposited command.toAccount command.amount]

theorem Books.reads {S : Type} {command : CommandLogic Any Raw Value BankEvent S}
    (hevent : command.event = codec.event) (hstatic : command.streamResolver = none)
    {before after : StoreData Any Raw Value} {ledger : List BankEvent}
    (hbooks : Books codec before ledger) {reads : List (StreamId × List BankEvent)}
    {events : List BankEvent} (halone : RunsAlone command before after reads events) :
    reads = command.streamDeclarations.streams.map fun s => (s,eventsAt s ledger) := by
  rw [← halone.nodes_of_static hstatic,List.map_map]
  refine (List.map_id reads).symm.trans (List.map_congr_left fun v hv => ?_)
  have hread : (eventsAt v.1 ledger).map Except.ok = v.2.map (Except.ok (ε := EventStoreError)) := by
    rw [← halone.whole v hv,readStream,hevent,hbooks.streams,List.map_map]
    refine List.map_congr_left fun event _ => ?_
    simp [downcast,BankCodec.event,codec.downcastRef_box]
  have hinj : Function.Injective (Except.ok : BankEvent → Except EventStoreError BankEvent) :=
    fun a b => Except.ok.inj
  exact Prod.ext rfl (List.map_injective_iff.mpr hinj hread).symm

theorem foldl_transfer_apply (command : Transfer) (hne : command.fromAccount ≠ command.toAccount)
    {accountId : StreamId} {events : List BankEvent}
    (hevents : ∀ event ∈ events, event.streamId = accountId) (state : TransferState) :
    events.foldl command.apply state =
      ⟨if accountId = command.fromAccount then events.foldl AccountState.apply state.source
        else state.source,
      if accountId = command.toAccount then events.foldl AccountState.apply state.destination
        else state.destination⟩ := by
  induction events generalizing state with
  | nil => simp
  | cons event events ih =>
    have hid := hevents event List.mem_cons_self
    rw [List.foldl_cons,ih (fun e he => hevents e (List.mem_cons_of_mem _ he))]
    by_cases hfrom : accountId = command.fromAccount
    · simp [Transfer.apply,hid,hfrom,hne]
    · by_cases hto : accountId = command.toAccount
      · simp [Transfer.apply,hid,hto,hne.symm]
      · simp [Transfer.apply,hid,hfrom,hto]

theorem mem_eventsAt {accountId : StreamId} {ledger : List BankEvent} {event : BankEvent}
    (h : event ∈ eventsAt accountId ledger) : event.streamId = accountId := by
  simpa using (List.mem_filter.mp h).2

theorem Transfer.after_reads (command : Transfer) (ledger : List BankEvent)
    (hne : command.fromAccount ≠ command.toAccount) :
    ((command.logic codec : CommandLogic Any Raw Value _ _).search.after
      [(command.fromAccount,eventsAt command.fromAccount ledger),
        (command.toAccount,eventsAt command.toAccount ledger)]) =
      ⟨AccountState.fold (eventsAt command.fromAccount ledger),
        AccountState.fold (eventsAt command.toAccount ledger)⟩ := by
  simp only [Exploration.Search.after,CommandLogic.search,Transfer.logic,List.foldl_cons,
    List.foldl_nil]
  rw [foldl_transfer_apply command hne (fun _ => mem_eventsAt),
    foldl_transfer_apply command hne (fun _ => mem_eventsAt)]
  simp [hne,hne.symm,AccountState.fold]

theorem writes_of {before after : StoreData Any Raw Value} {ledger : List BankEvent}
    (hbooks : Books codec before ledger) {command : BankCommand}
    {reads : List (StreamId × List BankEvent)} {events : List BankEvent}
    (halone : RunsAlone (command.logic codec) before after reads events) :
    Writes ledger command events := by
  have hopen : ∀ accountId, (AccountState.fold (eventsAt accountId ledger)).isOpen = true ↔
      eventsAt accountId ledger ≠ [] := fun accountId => (hbooks.accounts accountId).isOpen_iff
  have hhandled := halone.handled
  cases command with
  | openAccount command =>
    rw [hbooks.reads rfl rfl halone] at hhandled
    change (command.logic codec : CommandLogic Any Raw Value _ _).handle
      (AccountState.fold (eventsAt command.accountId ledger)) = _ at hhandled
    simp only [OpenAccount.logic] at hhandled
    split_ifs at hhandled with h
    cases hhandled
    exact .openAccount command (by simpa [hopen] using h)
  | deposit command =>
    rw [hbooks.reads rfl rfl halone] at hhandled
    change (command.logic codec : CommandLogic Any Raw Value _ _).handle
      (AccountState.fold (eventsAt command.accountId ledger)) = _ at hhandled
    simp only [Deposit.logic] at hhandled
    split_ifs at hhandled with h
    cases hhandled
    exact .deposit command ((hopen _).mp (by simpa using h))
  | withdraw command =>
    rw [hbooks.reads rfl rfl halone] at hhandled
    change (command.logic codec : CommandLogic Any Raw Value _ _).handle
      (AccountState.fold (eventsAt command.accountId ledger)) = _ at hhandled
    simp only [Withdraw.logic] at hhandled
    split_ifs at hhandled with h hfunds
    cases hhandled
    exact .withdraw command ((hopen _).mp (by simpa using h))
      (by simpa [AccountState.hasSufficientFunds] using hfunds)
  | transfer command =>
    rw [hbooks.reads rfl rfl halone] at hhandled
    by_cases hne : command.fromAccount = command.toAccount
    · simp [BankCommand.logic,Transfer.logic,Transfer.handle,hne] at hhandled
    · have hstreams : (declared command.fromAccount [command.toAccount]).streams =
          [command.fromAccount,command.toAccount] := by
        simp [DeriveCommand.declared,DeriveCommand.pushDistinct,Ne.symm hne]
      change command.handle ((command.logic codec : CommandLogic Any Raw Value _ _).search.after
        ((declared command.fromAccount [command.toAccount]).streams.map
          fun s => (s,eventsAt s ledger))) = _ at hhandled
      rw [hstreams,List.map_cons,List.map_cons,List.map_nil,
        Transfer.after_reads command ledger hne] at hhandled
      simp only [Transfer.handle,hne,if_false] at hhandled
      split_ifs at hhandled with hfrom hto hfunds
      cases hhandled
      exact .transfer command hne ((hopen _).mp (by simpa using hfrom))
        ((hopen _).mp (by simpa using hto))
        (by simpa [AccountState.hasSufficientFunds] using hfunds)

end Commands

section Flow

def BankCommand.flowAt (accountId : StreamId) : BankCommand → ℤ
  | openAccount _ => 0
  | deposit command => if command.accountId = accountId then command.amount.cents.toNat else 0
  | withdraw command => if command.accountId = accountId then -command.amount.cents.toNat else 0
  | transfer command =>
    (if command.toAccount = accountId then (command.amount.cents.toNat : ℤ) else 0) -
      if command.fromAccount = accountId then (command.amount.cents.toNat : ℤ) else 0

def BankCommand.flow : BankCommand → ℤ
  | deposit command => command.amount.cents.toNat
  | withdraw command => -command.amount.cents.toNat
  | _ => 0

variable {ledger events : List BankEvent} {command : BankCommand}

theorem netCents_eventsAt_cons (accountId : StreamId) (event : BankEvent)
    (events : List BankEvent) :
    netCents (eventsAt accountId (event :: events)) =
      (if event.streamId = accountId then event.cents else 0) +
        netCents (eventsAt accountId events) := by
  by_cases h : event.streamId = accountId <;> simp [eventsAt,netCents,h]

theorem Writes.flowAt (h : Writes ledger command events) (accountId : StreamId) :
    netCents (eventsAt accountId events) = command.flowAt accountId := by
  cases h with
  | openAccount command =>
    simp [netCents_eventsAt_cons,BankEvent.cents,BankCommand.flowAt]
  | deposit command =>
    by_cases hid : command.accountId = accountId <;>
      simp [netCents_eventsAt_cons,BankEvent.streamId,BankEvent.cents,BankCommand.flowAt,hid]
  | withdraw command =>
    by_cases hid : command.accountId = accountId <;>
      simp [netCents_eventsAt_cons,BankEvent.streamId,BankEvent.cents,BankCommand.flowAt,hid]
  | transfer command =>
    by_cases hfrom : command.fromAccount = accountId <;>
      by_cases hto : command.toAccount = accountId <;>
      simp [netCents_eventsAt_cons,BankEvent.streamId,BankEvent.cents,BankCommand.flowAt,hfrom,hto]

theorem Writes.flow (h : Writes ledger command events) : netCents events = command.flow := by
  cases h <;> simp [netCents,BankEvent.cents,BankCommand.flow]

theorem Writes.accounts (h : Writes ledger command events)
    (hledger : ∀ accountId, AccountHistory accountId (eventsAt accountId ledger))
    (accountId : StreamId) : AccountHistory accountId (eventsAt accountId (ledger ++ events)) := by
  have hbefore := hledger accountId
  rw [eventsAt_append]
  cases h with
  | openAccount command hnew =>
    by_cases hid : command.accountId = accountId
    · subst hid
      have hself : eventsAt command.accountId
          [.accountOpened command.accountId command.holder] =
          [.accountOpened command.accountId command.holder] := eventsAt_singleton_self rfl
      rw [hnew,hself]
      exact .opened command.holder
    · rwa [eventsAt_singleton_ne (by simpa [BankEvent.streamId] using hid),List.append_nil]
  | deposit command hopen =>
    by_cases hid : command.accountId = accountId
    · subst hid
      have hself : eventsAt command.accountId
          [.moneyDeposited command.accountId command.amount] =
          [.moneyDeposited command.accountId command.amount] := eventsAt_singleton_self rfl
      rw [hself]
      exact hbefore.deposited command.amount hopen
    · rwa [eventsAt_singleton_ne (by simpa [BankEvent.streamId] using hid),List.append_nil]
  | withdraw command hopen hfunds =>
    by_cases hid : command.accountId = accountId
    · subst hid
      have hself : eventsAt command.accountId
          [.moneyWithdrawn command.accountId command.amount] =
          [.moneyWithdrawn command.accountId command.amount] := eventsAt_singleton_self rfl
      rw [hself]
      exact hbefore.withdrawn command.amount hopen hfunds
    · rwa [eventsAt_singleton_ne (by simpa [BankEvent.streamId] using hid),List.append_nil]
  | transfer command hne hfrom hto hfunds =>
    by_cases hsource : command.fromAccount = accountId
    · subst hsource
      have hevents : eventsAt command.fromAccount
          [.moneyWithdrawn command.fromAccount command.amount,
            .moneyDeposited command.toAccount command.amount] =
          [.moneyWithdrawn command.fromAccount command.amount] := by
        simp [eventsAt,BankEvent.streamId,Ne.symm hne]
      rw [hevents]
      exact hbefore.withdrawn command.amount hfrom hfunds
    · by_cases hdestination : command.toAccount = accountId
      · subst hdestination
        have hevents : eventsAt command.toAccount
            [.moneyWithdrawn command.fromAccount command.amount,
              .moneyDeposited command.toAccount command.amount] =
            [.moneyDeposited command.toAccount command.amount] := by
          simp [eventsAt,BankEvent.streamId,hne]
        rw [hevents]
        exact hbefore.deposited command.amount hto
      · have hevents : eventsAt accountId
            [.moneyWithdrawn command.fromAccount command.amount,
              .moneyDeposited command.toAccount command.amount] = [] := by
          simp [eventsAt,BankEvent.streamId,hsource,hdestination]
        rwa [hevents,List.append_nil]

end Flow

section Interleavings

variable {Any Raw Value : Type} {codec : BankCodec Any Raw} {ι : Type} [DecidableEq ι]
  {nowV7 : ℕ → Uuid} {commands : ι → BankCommand} {policies : ι → RetryPolicy}

/-- The bank as the executor runs it: any number of its commands at once. -/
def bank (codec : BankCodec Any Raw) (nowV7 : ℕ → Uuid) (commands : ι → BankCommand)
    (policies : ι → RetryPolicy) :
    Runs.System (World ι Any Raw Value (fun _ => BankEvent) fun i => (commands i).State)
      (Label ι) :=
  system nowV7 (fun i => (commands i).logic codec) policies .new

structure Account (codec : BankCodec Any Raw) (commands : ι → BankCommand) (runs : List ι)
    (store : StoreData Any Raw Value) (ledger : List BankEvent) : Prop where
  books : Books codec store ledger
  flowAt : ∀ accountId, netCents (eventsAt accountId ledger) =
    (runs.map fun i => (commands i).flowAt accountId).sum
  flow : netCents ledger = (runs.map fun i => (commands i).flow).sum

omit [DecidableEq ι] in
theorem Account.runsAlone {runs : List ι} {before after : StoreData Any Raw Value}
    {ledger : List BankEvent} (h : Account codec commands runs before ledger) {i : ι}
    {reads : List (StreamId × List BankEvent)} {events : List BankEvent}
    (halone : RunsAlone ((commands i).logic codec) before after reads events) :
    Account codec commands (runs ++ [i]) after (ledger ++ events) := by
  have hwrites := writes_of h.books halone
  have hevent : ((commands i).logic codec : CommandLogic Any Raw Value _ _).event =
      codec.event := by
    cases commands i <;> rfl
  refine ⟨⟨?_,?_,hwrites.accounts h.books.accounts⟩,fun accountId => ?_,?_⟩
  · obtain ⟨logged,hlog,hall⟩ := halone.log
    rw [hlog]
    exact List.rel_append h.books.logged (hevent ▸ hall)
  · intro accountId
    rw [halone.streams,h.books.streams,hevent,eventsAt_append,List.map_append]
    rfl
  · rw [eventsAt_append,netCents_append,h.flowAt,hwrites.flowAt,List.map_append,List.sum_append]
    simp
  · rw [netCents_append,h.flow,hwrites.flow,List.map_append,List.sum_append]
    simp

theorem account_of_reachable
    {w : World ι Any Raw Value (fun _ => BankEvent) fun i => (commands i).State}
    (h : Runs.Reachable (bank codec nowV7 commands policies) w) :
    ∃ ledger, Account codec commands (w.commits.map Commit.run) w.store ledger := by
  refine invariant_of_runsAlone (P := fun runs store => ∃ ledger,
    Account codec commands runs store ledger) ?_ ?_ h
  · exact ⟨[],books_new,by simp,by simp⟩
  · rintro runs i before after reads events ⟨ledger,haccount⟩ halone
    exact ⟨_,haccount.runsAlone halone⟩

def plainCodec : BankCodec BankEvent BankEvent where
  typeName := "eventcore_demo::domain::BankEvent"
  toRawValue := .ok
  fromStr := .ok
  box := id
  downcastRef := some
  downcastRef_box _ := rfl

def ada : AccountHolder := ⟨"Ada",by decide,by decide⟩

def sixty : MoneyAmount := ⟨60,by decide⟩

/-- Two accounts, one deposit, and two transfers of all of it. -/
def oneDepositTwoTransfers : Fin 5 → BankCommand
  | 0 => .openAccount ⟨Sample.account,ada⟩
  | 1 => .openAccount ⟨Sample.savings,ada⟩
  | 2 => .deposit ⟨Sample.account,sixty⟩
  | 3 => .transfer ⟨Sample.account,Sample.savings,sixty⟩
  | 4 => .transfer ⟨Sample.account,Sample.savings,sixty⟩

def smallBank : Runs.System
    (World (Fin 5) BankEvent BankEvent Unit (fun _ => BankEvent) fun i =>
      (oneDepositTwoTransfers i).State) (Label (Fin 5)) :=
  bank plainCodec id oneDepositTwoTransfers fun _ => {}

/-- The transfers read the same balances; the second to append conflicts and, when it reads
again, finds the account empty. -/
def racingTransfers (opening other deposit transfer rival : Fin 5) : List (Label (Fin 5)) :=
  [opening,opening,other,other,deposit,deposit,transfer,rival,transfer,rival,transfer,rival,rival,
    rival,rival].map fun i => ⟨i,id⟩

theorem exists_racingTransfers :
    ∃ w, Runs.exec smallBank
        (World.start (fun i => (oneDepositTwoTransfers i).logic plainCodec) (fun _ => {}) .new)
        (racingTransfers 0 1 2 3 4) = some w ∧ w.commits.map Commit.run = [0,1,2,3] ∧
      w.store.globalLog.length = 5 := ⟨_,rfl,rfl,rfl⟩

/-- However the commands interleave, the store holds one ledger, and at every point of it each
account has been opened once, before any money moved, and holds at least what its write model
shows; none is ever overdrawn. -/
theorem accounts_never_overdrawn
    {w : World ι Any Raw Value (fun _ => BankEvent) fun i => (commands i).State}
    (h : Runs.Reachable (bank codec nowV7 commands policies) w) :
    ∃ ledger, Books codec w.store ledger ∧ ∀ earlier, earlier <+: ledger → ∀ accountId,
      0 ≤ netCents (eventsAt accountId earlier) ∧
      (AccountState.fold (eventsAt accountId earlier)).balanceCents.toNat ≤
        netCents (eventsAt accountId earlier) ∧
      (eventsAt accountId earlier ≠ [] → ∃ holder rest,
        eventsAt accountId earlier = .accountOpened accountId holder :: rest ∧
        ∀ event ∈ rest, event.cents ≠ 0) := by
  obtain ⟨ledger,haccount⟩ := account_of_reachable h
  refine ⟨ledger,haccount.books,fun earlier hearlier accountId => ?_⟩
  have hhistory := (haccount.books.accounts accountId).prefix_closed (hearlier.filter _)
  have hle := hhistory.balance_le
  exact ⟨(Int.natCast_nonneg _).trans hle,hle,hhistory.opened_once⟩

/-- After the race there is no more than what came in. -/
theorem accounts_never_overdrawn_race :
    ∃ w, Runs.exec smallBank
        (World.start (fun i => (oneDepositTwoTransfers i).logic plainCodec) (fun _ => {}) .new)
        (racingTransfers 0 1 2 3 4) = some w ∧
      ∃ ledger, Books plainCodec w.store ledger ∧ ∀ earlier, earlier <+: ledger →
        0 ≤ netCents (eventsAt Sample.account earlier) := by
  obtain ⟨w,hw,-,-⟩ := exists_racingTransfers
  obtain ⟨ledger,hbooks,hall⟩ :=
    accounts_never_overdrawn (Runs.Reachable.exec (Runs.ReachableBy.init rfl) hw)
  exact ⟨w,hw,ledger,hbooks,fun earlier hearlier => (hall earlier hearlier _).1⟩

/-- However the commands interleave, the money in every account and in the whole bank is what
the successful commands say, each counted once and transfers moving without a trace. -/
theorem money_conserved
    {w : World ι Any Raw Value (fun _ => BankEvent) fun i => (commands i).State}
    (h : Runs.Reachable (bank codec nowV7 commands policies) w) :
    ∃ (ledger : List BankEvent) (runs : List ι), Books codec w.store ledger ∧ runs.Nodup ∧
      (∀ i, i ∈ runs ↔ ∃ n, (w.runs i).pending = .done (.success n)) ∧
      (∀ accountId, netCents (eventsAt accountId ledger) =
        (runs.map fun i => (commands i).flowAt accountId).sum) ∧
      netCents ledger = (runs.map fun i => (commands i).flow).sum := by
  obtain ⟨ledger,haccount⟩ := account_of_reachable h
  exact ⟨ledger,_,haccount.books,(worldInv_of_reachable h).once,
    fun i => ((inTurn_of_reachable h).success i).symm,haccount.flowAt,haccount.flow⟩

/-- After the race all of the deposit is in the second account. -/
theorem money_conserved_race :
    ∃ w, Runs.exec smallBank
        (World.start (fun i => (oneDepositTwoTransfers i).logic plainCodec) (fun _ => {}) .new)
        (racingTransfers 0 1 2 3 4) = some w ∧
      ∃ (ledger : List BankEvent) (runs : List (Fin 5)), Books plainCodec w.store ledger ∧
        runs.Nodup ∧ netCents ledger = (runs.map fun i => (oneDepositTwoTransfers i).flow).sum := by
  obtain ⟨w,hw,-,-⟩ := exists_racingTransfers
  obtain ⟨ledger,runs,hbooks,honce,-,-,hflow⟩ :=
    money_conserved (Runs.Reachable.exec (Runs.ReachableBy.init rfl) hw)
  exact ⟨w,hw,ledger,runs,hbooks,honce,hflow⟩

end Interleavings

end BankDemo
end EventCore
