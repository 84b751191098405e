import EventCore.FileIndex
import EventCore.TextLines

/-! Transaction files as text: a header line, then one line for each event. The header of a written
file anchors the hash of everything after its first line feed, and a reader recomputes it before
it parses the events. Printing and parsing one record and the hash function are parameters. -/
namespace EventCore
namespace TransactionFiles
open TextLines

variable {Path Value : Type}

structure TransactionHeader extends FileStore.TransactionHeader where
  formatVersion : UInt32
  contentHash : Option String
  deriving DecidableEq

structure EventEnvelope (Value : Type) extends FileStore.EventEnvelope Value where
  metadata : Value
  deriving DecidableEq

inductive Line (Value : Type)
  | header (header : TransactionHeader)
  | event (event : EventEnvelope Value)
  deriving DecidableEq

/-- `serde_json::to_string` and `serde_json::from_str` of a line. -/
structure LineCodec (Value : Type) where
  toString : Line Value → Except String String
  fromStr : String → Except String (Line Value)

/-- The record is printed as one JSON object on one line, and parsed back from it. -/
def LineCodec.Keeps (codec : LineCodec Value) (line : Line Value) : Prop :=
  ∃ inner : List Char, '\n' ∉ inner ∧
    codec.toString line = .ok (String.ofList ('{' :: inner ++ ['}'])) ∧
    codec.fromStr (String.ofList ('{' :: inner ++ ['}'])) = .ok line

/-- `FsEventStoreError::Corrupted`. -/
structure Corrupted (Path : Type) where
  path : Path
  detail : String
  deriving DecidableEq

inductive LoadedTransaction (Value : Type)
  | valid (header : TransactionHeader) (events : List (EventEnvelope Value))
  | integrity (transactionId : Uuid) (detail : String)
  deriving DecidableEq

/-- `{byte:02x}`. -/
def hexByte (byte : UInt8) : List Char :=
  [Nat.digitChar (byte.toNat/16),Nat.digitChar (byte.toNat%16)]

section Files

variable (sha256 : ByteArray → Vector UInt8 32) (codec : LineCodec Value)

def contentHash (payload : String) : String :=
  String.ofList ((sha256 payload.toUTF8).toList.flatMap hexByte)

def anchored (header : TransactionHeader) (payload : String) : TransactionHeader :=
  { header with contentHash := some (contentHash sha256 payload) }

def splitHeaderPayload (contents : String) (path : Path) :
    Except (Corrupted Path) (String × String) :=
  match splitFirst '\n' contents.toList with
  | some (headerLine,payload) => .ok (String.ofList headerLine,String.ofList payload)
  | none => .error ⟨path,"missing header line"⟩

def parseHeader (headerLine : String) (path : Path) :
    Except (Corrupted Path) TransactionHeader :=
  match codec.fromStr headerLine with
  | .ok (.header header) => .ok header
  | .ok (.event _) => .error ⟨path,"first line is not a header"⟩
  | .error error => .error ⟨path,"invalid header line: " ++ error⟩

/-- The loop of `parse_events`; blank lines are passed over. -/
def parseLines (path : Path) : List String → Except (Corrupted Path) (List (EventEnvelope Value))
  | [] => .ok []
  | line :: rest =>
    if trim line = "" then parseLines path rest
    else match codec.fromStr line with
      | .ok (.event event) => (parseLines path rest).map (event :: ·)
      | .ok (.header _) => .error ⟨path,"unexpected header record among events"⟩
      | .error error => .error ⟨path,"invalid line: " ++ error⟩

def parseEvents (payload : String) (path : Path) :
    Except (Corrupted Path) (List (EventEnvelope Value)) :=
  parseLines codec path ((lines payload.toList).map String.ofList)

/-- `files` is `fs::read_to_string`. -/
def loadTransaction (files : Path → Except String String) (path : Path) :
    Except (Corrupted Path) (LoadedTransaction Value) := do
  let contents ← match files path with
    | .ok contents => pure contents
    | .error error => throw ⟨path,"read failed: " ++ error⟩
  let (headerLine,payload) ← splitHeaderPayload contents path
  let header ← parseHeader codec headerLine path
  match header.contentHash with
  | some expected =>
    let actual := contentHash sha256 payload
    if actual ≠ expected then
      pure (.integrity header.transactionId
        ("content hash mismatch: header anchor " ++ expected ++ " != computed " ++ actual))
    else return .valid header (← parseEvents codec payload path)
  | none => return .valid header (← parseEvents codec payload path)

def serializeLine (line : Line Value) : Except EventStoreError String :=
  match codec.toString line with
  | .ok text => .ok text
  | .error _ => .error (.storeFailure .appendEvents)

def serializePayload (events : List (EventEnvelope Value)) : Except EventStoreError String := do
  let eventLines ← events.mapM fun event => serializeLine codec (.event event)
  return "\n".intercalate eventLines ++ "\n"

def serializeTransaction (header : TransactionHeader) (events : List (EventEnvelope Value)) :
    Except EventStoreError String := do
  let payload ← serializePayload codec events
  let headerLine ← serializeLine codec (.header (anchored sha256 header payload))
  return headerLine ++ "\n" ++ payload

end Files

section Hash

theorem digitChar_injective : ∀ a b : Fin 16, Nat.digitChar a = Nat.digitChar b → a = b := by
  decide

theorem hexByte_injective {a b : UInt8} (h : hexByte a = hexByte b) : a = b := by
  have hdigit : ∀ {m n : ℕ}, m < 16 → n < 16 → Nat.digitChar m = Nat.digitChar n → m = n := by
    intro m n hm hn heq
    exact congrArg Fin.val (digitChar_injective ⟨m,hm⟩ ⟨n,hn⟩ heq)
  simp only [hexByte,List.cons.injEq,and_true] at h
  have ha := a.toNat_lt
  have hb := b.toNat_lt
  have hhigh := hdigit (by omega) (by omega) h.1
  have hlow := hdigit (by omega) (by omega) h.2
  exact UInt8.toNat_inj.mp (by omega)

theorem hex_injective {as bs : List UInt8} (h : as.flatMap hexByte = bs.flatMap hexByte) :
    as = bs := by
  induction as generalizing bs with
  | nil =>
    cases bs with
    | nil => rfl
    | cons b bs => simp [hexByte] at h
  | cons a as ih =>
    cases bs with
    | nil => simp [hexByte] at h
    | cons b bs =>
      obtain ⟨hhead,htail⟩ := List.append_inj h rfl
      rw [hexByte_injective hhead,ih htail]

def Collide (sha256 : ByteArray → Vector UInt8 32) (a b : String) : Prop :=
  a ≠ b ∧ sha256 a.toUTF8 = sha256 b.toUTF8

theorem contentHash_injective {sha256 : ByteArray → Vector UInt8 32} {a b : String}
    (hcollide : ¬ Collide sha256 a b) (h : contentHash sha256 a = contentHash sha256 b) :
    a = b := by
  by_contra hne
  have hbytes := hex_injective (String.ofList_injective h)
  exact hcollide ⟨hne,Vector.toList_inj.mp hbytes⟩

end Hash

section Reading

variable {sha256 : ByteArray → Vector UInt8 32} {codec : LineCodec Value}

theorem splitHeaderPayload_append {headerLine : String} (h : '\n' ∉ headerLine.toList)
    (payload : String) (path : Path) :
    splitHeaderPayload (headerLine ++ "\n" ++ payload) path = .ok (headerLine,payload) := by
  have hcut : splitFirst '\n' (headerLine ++ "\n" ++ payload).toList =
      some (headerLine.toList,payload.toList) := by
    rw [String.toList_append,String.toList_append,List.append_assoc]
    exact splitFirst_append h payload.toList
  rw [splitHeaderPayload,hcut]
  simp only [String.ofList_toList]

theorem trim_ne_empty (inner : List Char) :
    trim (String.ofList ('{' :: inner ++ ['}'])) ≠ "" := by
  have hopen : isWhitespace '{' = false := by decide
  have hclose : isWhitespace '}' = false := by decide
  have hchars : trimChars ('{' :: inner ++ ['}']) = '{' :: inner ++ ['}'] := by
    rw [trimChars,List.cons_append,List.dropWhile_cons_of_neg (by simp [hopen]),
      ← List.cons_append,List.rdropWhile_concat_neg _ _ _ (by simp [hclose])]
  intro h
  have hlist := congrArg String.toList h
  rw [trim,String.toList_ofList,String.toList_ofList,hchars] at hlist
  simp at hlist

theorem parseLines_printed {events : List (EventEnvelope Value)}
    (hevents : ∀ event ∈ events, codec.Keeps (.event event)) :
    ∃ texts, events.mapM (fun event => serializeLine codec (.event event)) = .ok texts ∧
      (∀ text ∈ texts, OneLine text.toList) ∧
      ∀ path : Path, parseLines codec path texts = .ok events := by
  induction events with
  | nil => exact ⟨[],rfl,by simp,fun _ => rfl⟩
  | cons event events ih =>
    obtain ⟨⟨inner,hline,hprint,hparse⟩,hevents⟩ := List.forall_mem_cons.mp hevents
    obtain ⟨texts,htexts,hlines,hread⟩ := ih hevents
    refine ⟨String.ofList ('{' :: inner ++ ['}']) :: texts,?_,?_,?_⟩
    · rw [List.mapM_cons,htexts,serializeLine,hprint]
      rfl
    · refine List.forall_mem_cons.mpr ⟨⟨?_,?_⟩,hlines⟩
      · simpa using hline
      · rw [String.toList_ofList,List.getLast?_concat]
        decide
    · intro path
      rw [parseLines,if_neg (trim_ne_empty inner),hparse]
      simp only [hread path,Except.map]

theorem parseEvents_serializePayload {events : List (EventEnvelope Value)}
    (hevents : ∀ event ∈ events, codec.Keeps (.event event)) :
    ∃ payload, serializePayload codec events = .ok payload ∧
      ∀ path : Path, parseEvents codec payload path = .ok events := by
  obtain ⟨texts,htexts,hlines,hread⟩ := @parseLines_printed Path Value codec events hevents
  refine ⟨"\n".intercalate texts ++ "\n",by rw [serializePayload,htexts]; rfl,fun path => ?_⟩
  have hcut : lines ("\n".intercalate texts ++ "\n").toList =
      if texts.map String.toList = [] then [[]] else texts.map String.toList := by
    rw [String.toList_append,String.toList_intercalate]
    exact lines_intercalate (by simpa using hlines)
  rw [parseEvents,hcut]
  cases texts with
  | nil => exact hread path
  | cons text texts =>
    rw [if_neg (by simp),List.map_map]
    simpa using hread path

theorem loadTransaction_anchored {header : TransactionHeader} {headerLine payload : String}
    (hline : '\n' ∉ headerLine.toList)
    (hparse : codec.fromStr headerLine = .ok (.header (anchored sha256 header payload)))
    {files : Path → Except String String} {path : Path} {found : String}
    (hread : files path = .ok (headerLine ++ "\n" ++ found)) :
    loadTransaction sha256 codec files path =
      if contentHash sha256 found = contentHash sha256 payload then
        (parseEvents codec found path).map (.valid (anchored sha256 header payload))
      else .ok (.integrity header.transactionId
        ("content hash mismatch: header anchor " ++ contentHash sha256 payload ++
          " != computed " ++ contentHash sha256 found)) := by
  have hheader : parseHeader codec headerLine path =
      .ok (anchored sha256 header payload) := by rw [parseHeader,hparse]
  have hsplit : splitHeaderPayload (headerLine ++ "\n" ++ found) path = .ok (headerLine,found) :=
    splitHeaderPayload_append hline found path
  simp only [loadTransaction,hread,bind,Except.bind,pure,Except.pure,hsplit,hheader,anchored,
    ne_eq,ite_not]
  split_ifs
  · cases parseEvents codec found path <;> rfl
  · rfl

/-- A written file loads as the header it was written with and its events in order, and with any
other payload under its header line, hash collisions apart, as an integrity failure. -/
theorem transaction_files_tamper_evident {header : TransactionHeader}
    {events : List (EventEnvelope Value)} (hevents : ∀ event ∈ events, codec.Keeps (.event event))
    (hheader : ∀ payload, serializePayload codec events = .ok payload →
      codec.Keeps (.header (anchored sha256 header payload))) :
    ∃ headerLine payload, serializePayload codec events = .ok payload ∧
      serializeTransaction sha256 codec header events = .ok (headerLine ++ "\n" ++ payload) ∧
      '\n' ∉ headerLine.toList ∧
      ∀ (files : Path → Except String String) path,
        (files path = .ok (headerLine ++ "\n" ++ payload) →
          loadTransaction sha256 codec files path =
            .ok (.valid (anchored sha256 header payload) events)) ∧
        ∀ other, other ≠ payload → ¬ Collide sha256 other payload →
          files path = .ok (headerLine ++ "\n" ++ other) →
          ∃ detail, loadTransaction sha256 codec files path =
            .ok (.integrity header.transactionId detail) := by
  obtain ⟨payload,hpayload,hevents⟩ := @parseEvents_serializePayload Path Value codec events hevents
  obtain ⟨inner,hinner,hprint,hparse⟩ := hheader payload hpayload
  have hline : '\n' ∉ (String.ofList ('{' :: inner ++ ['}'])).toList := by simpa using hinner
  refine ⟨_,payload,hpayload,?_,hline,fun files path => ⟨fun hread => ?_,fun other hne hcollide hread => ?_⟩⟩
  · simp only [serializeTransaction,hpayload,serializeLine,hprint,bind,Except.bind,pure,Except.pure]
  · rw [loadTransaction_anchored hline hparse hread,if_pos rfl,hevents path]
    rfl
  · have hhash : contentHash sha256 other ≠ contentHash sha256 payload :=
      fun heq => hne (contentHash_injective hcollide heq)
    exact ⟨_,by rw [loadTransaction_anchored hline hparse hread,if_neg hhash]⟩

end Reading

section Deposit

def depositHeader : TransactionHeader :=
  ⟨⟨1,2,[],"2026-01-01T00:00:00Z",(∅ : HashMap String ℕ).insert "account-1" 0⟩,2,none⟩

def deposit : EventEnvelope (Option ℕ) := ⟨⟨3,"account-1",1,"Deposited",some 50⟩,none⟩

def depositFields : List Char :=
  "\"record\":\"event\",".toList ++
  "\"event_id\":\"00000000-0000-0000-0000-000000000003\",".toList ++
  "\"stream_id\":\"account-1\",\"stream_version\":1,".toList ++
  "\"event_type\":\"Deposited\",\"event_data\":50,\"metadata\":null".toList

def depositHeaderFields : List Char :=
  "\"record\":\"header\",\"format_version\":2,".toList ++
  "\"transaction_id\":\"00000000-0000-0000-0000-000000000001\",".toList ++
  "\"replica_id\":\"00000000-0000-0000-0000-000000000002\",".toList ++
  "\"parent_transaction_ids\":[],\"created_at\":\"2026-01-01T00:00:00Z\",".toList ++
  "\"stream_bases\":\x7b\"account-1\":0\x7d,\"content_hash\":".toList ++
  "\"b3eb5e3399b884acae0b65782be9732b11f80c29d81eff673309790fa58b8c95\"".toList

def braced (fields : List Char) : String := String.ofList ('{' :: fields ++ ['}'])

def depositPayload : String := braced depositFields ++ "\n"

/-- The digests of the payload and of the payload with its line twice. -/
def depositSha256 (bytes : ByteArray) : Vector UInt8 32 :=
  if bytes.data = depositPayload.toUTF8.data then
    #v[179,235,94,51,153,184,132,172,174,11,101,120,43,233,115,43,
      17,248,12,41,216,30,255,103,51,9,121,15,165,139,140,149]
  else if bytes.data = (depositPayload ++ depositPayload).toUTF8.data then
    #v[198,57,50,180,217,50,206,51,187,82,254,54,242,195,210,233,
      128,173,193,235,48,215,255,187,76,32,121,105,116,236,17,211]
  else .replicate 32 0

def depositCodec : LineCodec (Option ℕ) where
  toString
    | .event _ => .ok (braced depositFields)
    | .header _ => .ok (braced depositHeaderFields)
  fromStr text :=
    if text = braced depositHeaderFields then
      .ok (.header (anchored depositSha256 depositHeader depositPayload))
    else if text = braced depositFields then .ok (.event deposit)
    else .error "expected value at line 1 column 1"

theorem keeps_of_braced {codec : LineCodec Value} {line : Line Value} (fields : List Char)
    (hline : '\n' ∉ fields) (hprint : codec.toString line = .ok (braced fields))
    (hparse : codec.fromStr (braced fields) = .ok line) : codec.Keeps line :=
  ⟨fields,hline,hprint,hparse⟩

theorem deposit_keeps : depositCodec.Keeps (.event deposit) := by
  have hother : braced depositFields ≠ braced depositHeaderFields := by
    rw [braced,braced,ne_eq,String.ofList_inj]
    decide +kernel
  exact keeps_of_braced depositFields (by decide +kernel) (by simp only [depositCodec])
    (by simp only [depositCodec,if_neg hother,if_true])

theorem depositHeader_keeps :
    depositCodec.Keeps (.header (anchored depositSha256 depositHeader depositPayload)) :=
  keeps_of_braced depositHeaderFields (by decide +kernel) (by simp only [depositCodec])
    (by simp only [depositCodec,if_true])

theorem deposit_written : serializePayload depositCodec [deposit] = .ok depositPayload := by
  simp [serializePayload,serializeLine,depositCodec,depositPayload]

theorem doubled_ne : depositPayload ++ depositPayload ≠ depositPayload := by
  intro h
  have hlength := congrArg String.length h
  simp [depositPayload] at hlength

theorem doubled_digest : depositSha256 (depositPayload ++ depositPayload).toUTF8 ≠
    depositSha256 depositPayload.toUTF8 := by
  have hbytes : (depositPayload ++ depositPayload).toUTF8.data ≠ depositPayload.toUTF8.data :=
    fun h => doubled_ne (String.toByteArray_inj.mp (ByteArray.ext h))
  rw [depositSha256,depositSha256,if_neg hbytes,if_pos rfl,if_pos rfl]
  decide

/-- A deposit, and its file with the event line spliced in twice. -/
theorem transaction_files_tamper_evident_deposit :
    contentHash depositSha256 depositPayload =
      "b3eb5e3399b884acae0b65782be9732b11f80c29d81eff673309790fa58b8c95" ∧
    ∃ headerLine payload,
      serializeTransaction depositSha256 depositCodec depositHeader [deposit] =
        .ok (headerLine ++ "\n" ++ payload) ∧
      loadTransaction depositSha256 depositCodec
        (fun _ : Unit => .ok (headerLine ++ "\n" ++ payload)) () =
          .ok (.valid (anchored depositSha256 depositHeader payload) [deposit]) ∧
      ∃ detail, loadTransaction depositSha256 depositCodec
        (fun _ : Unit => .ok (headerLine ++ "\n" ++ (payload ++ payload))) () =
          .ok (.integrity 1 detail) := by
  refine ⟨?_,?_⟩
  · rw [contentHash,depositSha256,if_pos rfl]
    rfl
  obtain ⟨headerLine,payload,hpayload,hwrite,_,hload⟩ :=
    @transaction_files_tamper_evident Unit _ depositSha256 depositCodec depositHeader [deposit]
      (List.forall_mem_singleton.mpr deposit_keeps) (fun payload hpayload => by
        obtain rfl := Except.ok.inj (deposit_written.symm.trans hpayload)
        exact depositHeader_keeps)
  obtain rfl := Except.ok.inj (deposit_written.symm.trans hpayload)
  refine ⟨headerLine,_,hwrite,(hload _ ()).1 rfl,(hload _ ()).2 _ doubled_ne ?_ rfl⟩
  exact fun hcollide => doubled_digest hcollide.2

end Deposit

end TransactionFiles
end EventCore
