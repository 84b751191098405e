import EventCore.DeriveCommand

/-! The bank of the demo: its events, the write model of an account, and the four commands. -/
namespace EventCore
namespace BankDemo

open DeriveCommand

@[ext] structure AccountHolder where
  value : String
  trimmed : trim value = value
  notEmpty : value ≠ ""

instance : DecidableEq AccountHolder := fun a b =>
  decidable_of_iff (a.value = b.value) AccountHolder.ext_iff.symm

@[ext] structure MoneyAmount where
  cents : UInt32
  greater : 0 < cents.toNat

instance : DecidableEq MoneyAmount := fun a b =>
  decidable_of_iff (a.cents = b.cents) MoneyAmount.ext_iff.symm

def MoneyAmount.tryNew (cents : UInt32) : Option MoneyAmount :=
  if h : 0 < cents.toNat then some ⟨cents,h⟩ else none

inductive BankEvent
  | accountOpened (accountId : StreamId) (holder : AccountHolder)
  | moneyDeposited (accountId : StreamId) (amount : MoneyAmount)
  | moneyWithdrawn (accountId : StreamId) (amount : MoneyAmount)
  deriving DecidableEq

def BankEvent.streamId : BankEvent → StreamId
  | accountOpened accountId _ => accountId
  | moneyDeposited accountId _ => accountId
  | moneyWithdrawn accountId _ => accountId

/-- How the library code around the events erases and serializes them. -/
structure BankCodec (Any Raw : Type) where
  typeName : String
  toRawValue : BankEvent → Except String Raw
  fromStr : Raw → Except String BankEvent
  box : BankEvent → Any
  downcastRef : Any → Option BankEvent
  downcastRef_box : ∀ e, downcastRef (box e) = some e

def BankCodec.event {Any Raw : Type} (codec : BankCodec Any Raw) : Event Any Raw BankEvent where
  streamId := BankEvent.streamId
  eventTypeName := "BankEvent"
  typeName := codec.typeName
  toRawValue := codec.toRawValue
  fromStr := codec.fromStr
  box := codec.box
  downcastRef := codec.downcastRef
  downcastRef_box := codec.downcastRef_box

section Saturation

/-- `u32::saturating_add` -/
def saturatingAdd (a b : UInt32) : UInt32 :=
  if a.toNat+b.toNat < 2^32 then a+b else 4294967295

/-- `u32::saturating_sub` -/
def saturatingSub (a b : UInt32) : UInt32 := if b.toNat ≤ a.toNat then a-b else 0

@[simp] theorem toNat_saturatingAdd (a b : UInt32) :
    (saturatingAdd a b).toNat = min (a.toNat+b.toNat) (2^32-1) := by
  unfold saturatingAdd
  split_ifs with h
  · rw [UInt32.toNat_add,Nat.mod_eq_of_lt h]
    omega
  · rw [show (4294967295 : UInt32).toNat = 2^32-1 from rfl]
    omega

@[simp] theorem toNat_saturatingSub (a b : UInt32) :
    (saturatingSub a b).toNat = a.toNat-b.toNat := by
  unfold saturatingSub
  split_ifs with h
  · exact UInt32.toNat_sub_of_le _ _ h
  · rw [Nat.sub_eq_zero_of_le (Nat.le_of_not_le h)]
    rfl

end Saturation

@[ext] structure AccountState where
  isOpen : Bool
  balanceCents : UInt32
  deriving DecidableEq

namespace AccountState

def default : AccountState := ⟨false,0⟩

def openAccount (state : AccountState) : AccountState := { state with isOpen := true }

def credit (state : AccountState) (amount : MoneyAmount) : AccountState :=
  { state with balanceCents := saturatingAdd state.balanceCents amount.cents }

def debit (state : AccountState) (amount : MoneyAmount) : AccountState :=
  { state with balanceCents := saturatingSub state.balanceCents amount.cents }

def hasSufficientFunds (state : AccountState) (amount : MoneyAmount) : Bool :=
  amount.cents.toNat ≤ state.balanceCents.toNat

def apply (state : AccountState) : BankEvent → AccountState
  | .accountOpened .. => state.openAccount
  | .moneyDeposited _ amount => state.credit amount
  | .moneyWithdrawn _ amount => state.debit amount

def fold (events : List BankEvent) : AccountState := events.foldl apply default

end AccountState

structure TransferState where
  source : AccountState
  destination : AccountState
  deriving DecidableEq

section Commands

variable {Any Raw Value : Type}

structure OpenAccount where
  accountId : StreamId
  holder : AccountHolder
  deriving DecidableEq

def OpenAccount.logic (self : OpenAccount) (codec : BankCodec Any Raw) :
    CommandLogic Any Raw Value BankEvent AccountState where
  event := codec.event
  streamDeclarations := declared self.accountId []
  default := .default
  apply := .apply
  handle state :=
    if state.isOpen then .error (.businessRuleViolation "account-already-open")
    else .ok [.accountOpened self.accountId self.holder]

structure Deposit where
  accountId : StreamId
  amount : MoneyAmount
  deriving DecidableEq

def Deposit.logic (self : Deposit) (codec : BankCodec Any Raw) :
    CommandLogic Any Raw Value BankEvent AccountState where
  event := codec.event
  streamDeclarations := declared self.accountId []
  default := .default
  apply := .apply
  handle state :=
    if !state.isOpen then .error (.businessRuleViolation "account-not-open")
    else .ok [.moneyDeposited self.accountId self.amount]

structure Withdraw where
  accountId : StreamId
  amount : MoneyAmount
  deriving DecidableEq

def Withdraw.logic (self : Withdraw) (codec : BankCodec Any Raw) :
    CommandLogic Any Raw Value BankEvent AccountState where
  event := codec.event
  streamDeclarations := declared self.accountId []
  default := .default
  apply := .apply
  handle state :=
    if !state.isOpen then .error (.businessRuleViolation "account-not-open")
    else if !state.hasSufficientFunds self.amount then
      .error (.businessRuleViolation "insufficient-funds")
    else .ok [.moneyWithdrawn self.accountId self.amount]

/-- `from` and `to` of the source. -/
structure Transfer where
  fromAccount : StreamId
  toAccount : StreamId
  amount : MoneyAmount
  deriving DecidableEq

def Transfer.apply (self : Transfer) (state : TransferState) (event : BankEvent) :
    TransferState :=
  let state :=
    if event.streamId = self.fromAccount then { state with source := state.source.apply event }
    else state
  if event.streamId = self.toAccount then
    { state with destination := state.destination.apply event }
  else state

def Transfer.handle (self : Transfer) (state : TransferState) :
    Except CommandError (List BankEvent) :=
  if self.fromAccount = self.toAccount then
    .error (.businessRuleViolation "same-account-transfer")
  else if !state.source.isOpen then .error (.businessRuleViolation "source-account-not-open")
  else if !state.destination.isOpen then
    .error (.businessRuleViolation "destination-account-not-open")
  else if !state.source.hasSufficientFunds self.amount then
    .error (.businessRuleViolation "insufficient-funds")
  else .ok [.moneyWithdrawn self.fromAccount self.amount,
    .moneyDeposited self.toAccount self.amount]

def Transfer.logic (self : Transfer) (codec : BankCodec Any Raw) :
    CommandLogic Any Raw Value BankEvent TransferState where
  event := codec.event
  streamDeclarations := declared self.fromAccount [self.toAccount]
  default := ⟨.default,.default⟩
  apply := self.apply
  handle := self.handle

inductive BankCommand
  | openAccount (command : OpenAccount)
  | deposit (command : Deposit)
  | withdraw (command : Withdraw)
  | transfer (command : Transfer)
  deriving DecidableEq

def BankCommand.State : BankCommand → Type
  | transfer _ => TransferState
  | _ => AccountState

def BankCommand.logic (codec : BankCodec Any Raw) :
    (command : BankCommand) → CommandLogic Any Raw Value BankEvent command.State
  | openAccount command => command.logic codec
  | deposit command => command.logic codec
  | withdraw command => command.logic codec
  | transfer command => command.logic codec

/-- The definition of `Transfer` as the derive macro is given it. -/
def Transfer.input : DeriveInput where
  ident := "Transfer"
  data := .struct (.named
    [⟨"from",[⟨["stream"],.path⟩],.path ["StreamId"]⟩,
      ⟨"to",[⟨["stream"],.path⟩],.path ["StreamId"]⟩,
      ⟨"amount",[],.path ["MoneyAmount"]⟩])

example : expandCommand Transfer.input = .ok ["from","to"] := by decide

end Commands

end BankDemo
end EventCore
