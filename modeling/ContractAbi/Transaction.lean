import ContractAbi.ReturnData

/-!
Calls over a network. A transport answers queries with slots and calls with an outcome once the
transaction is final.
-/
namespace ContractAbi

/-- Value and gas of a transaction. Without a nonce the transport picks one. -/
structure CallOptions where
  value : Nat
  gasLimit : Nat
  nonce : Option Nat
  deriving DecidableEq, Repr

def CallOptions.withGasLimit (gasLimit : Nat) : CallOptions := ⟨0, gasLimit, none⟩

/-- A token that is transferred with a call. -/
structure TokenPayment where
  tokenIdentifier : String
  nonce : Nat
  amount : Nat
  deriving DecidableEq, Repr

structure CallRequest where
  contractAddress : String
  endpoint : String
  args : List String
  options : CallOptions
  payment : Option TokenPayment
  deriving DecidableEq, Repr

/-- The data of the transaction: the endpoint and each argument behind an `@`. -/
def CallRequest.dataField (request : CallRequest) : String :=
  request.args.foldl (fun data arg => data ++ "@" ++ arg) request.endpoint

inductive CallStatus where
  | success
  | failed (reason : String)
  deriving DecidableEq, Repr

structure CallOutcome where
  transaction : String
  status : CallStatus
  deriving DecidableEq, Repr

/-- The transaction of a call that succeeded. -/
def CallOutcome.result (outcome : CallOutcome) (endpoint : String) : Except BindingFault String :=
  match outcome.status with
  | .success => .ok outcome.transaction
  | .failed reason => .error (.callFailed endpoint outcome.transaction reason)

structure Transport where
  query : (contractAddress endpoint : String) → (args : List String) →
    Except TransportFault (List Bytes)
  call : CallRequest → Except TransportFault CallOutcome

/-- Sends a call and waits for its transaction. -/
def Transport.submit (transport : Transport) (request : CallRequest) :
    Except BindingFault String := do
  let outcome ← (transport.call request).mapError .transport
  outcome.result request.endpoint

end ContractAbi
