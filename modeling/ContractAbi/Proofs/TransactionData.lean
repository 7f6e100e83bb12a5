import ContractAbi.Proofs.ArgumentBytes
import ContractAbi.Transaction

/-!
# The data of a transaction

The data of a transaction is the name of the endpoint and, behind an `@` each, the texts of the
arguments. A text of an argument has digits only, so cutting the data at every `@` gives back the
endpoint and all arguments, the empty ones among them.
-/
namespace ContractAbi

open Wire (Argument)

/-- The parts of the data of a transaction between the separators. -/
def dataParts (data : String) : List String :=
  (data.split '@').toList.map (·.copy)

theorem Wire.Argument.separator_not_mem_hexText (argument : Argument) :
    '@' ∉ argument.hexText.toList := by
  intro hmem
  rw [hexText, Hex.text, String.toList_ofList] at hmem
  have hdigit : '@' ∈ Hex.lowerDigits := Hex.mem_lowerDigits_of_mem_encode hmem
  exact absurd hdigit (by decide)

/-- The texts of arguments give their bytes back. -/
theorem Wire.Argument.payloads_eq {left right : List Argument}
    (h : left.map hexText = right.map hexText) : left.map payload = right.map payload := by
  have hdecode : ∀ arguments : List Argument, arguments.map payload =
      (arguments.map hexText).map fun text => (Hex.decode text).toOption.getD [] := by
    intro arguments
    rw [List.map_map]
    refine List.map_congr_left fun argument _ => ?_
    rw [Function.comp_apply, hexText, Hex.decode_text]
    rfl
  rw [hdecode left, h, ← hdecode right]

namespace CallRequest

variable {request other : CallRequest} {arguments others : List Argument}

/-- The request sends these arguments, to an endpoint without a separator in its name. -/
structure Sends (request : CallRequest) (arguments : List Argument) : Prop where
  endpoint : '@' ∉ request.endpoint.toList
  args : request.args = arguments.map Argument.hexText

theorem dataField_eq_intercalate (request : CallRequest) :
    request.dataField = (String.singleton '@').intercalate (request.endpoint :: request.args) := by
  rw [dataField]
  generalize request.endpoint = endpoint
  induction request.args generalizing endpoint with
  | nil => rw [List.foldl_nil, String.intercalate_singleton]
  | cons arg rest ih =>
    -- the part that was joined last is still open for those behind it
    rw [List.foldl_cons, ih, String.intercalate_cons_append, String.intercalate_cons_cons]
    rfl

theorem Sends.dataParts_eq (h : request.Sends arguments) :
    dataParts request.dataField = request.endpoint :: request.args := by
  have hclear : ∀ part ∈ request.endpoint :: request.args, '@' ∉ part.toList := by
    intro part hpart
    rcases List.mem_cons.1 hpart with rfl | hpart
    · exact h.endpoint
    · rw [h.args] at hpart
      obtain ⟨argument, -, rfl⟩ := List.mem_map.1 hpart
      exact argument.separator_not_mem_hexText
  rw [dataParts, dataField_eq_intercalate, String.toList_split_intercalate hclear,
    if_neg (List.cons_ne_nil _ _)]

theorem Sends.eq_of_dataField_eq (h : request.Sends arguments) (hother : other.Sends others)
    (hdata : other.dataField = request.dataField) :
    other.endpoint = request.endpoint ∧ other.args = request.args := by
  have hparts : other.endpoint :: other.args = request.endpoint :: request.args := by
    rw [← hother.dataParts_eq, hdata, h.dataParts_eq]
  exact List.cons.inj hparts

/-- Requests with a different number of arguments have different data. -/
theorem Sends.dataField_ne_of_length_ne (h : request.Sends arguments) (hother : other.Sends others)
    (hlength : others.length ≠ arguments.length) : other.dataField ≠ request.dataField := by
  intro hdata
  have hargs := (h.eq_of_dataField_eq hother hdata).2
  rw [h.args, hother.args] at hargs
  exact hlength (by simpa using congrArg List.length hargs)

end CallRequest

/-- Cutting the data of a call at the separators gives back the endpoint and the arguments in order.
So the data tells calls apart by endpoint and by the bytes of every argument, and a call that leaves
out an argument from one in which it is there, empty or not. -/
theorem transaction_data_is_lossless {request : CallRequest} {arguments : List Argument}
    (h : request.Sends arguments) :
    dataParts request.dataField = request.endpoint :: arguments.map Argument.hexText ∧
      (∀ other others, CallRequest.Sends other others → other.dataField = request.dataField →
        other.endpoint = request.endpoint ∧ other.args = request.args ∧
          others.map Argument.payload = arguments.map Argument.payload) ∧
      ∀ other before argument after, arguments = before ++ after →
        CallRequest.Sends other (before ++ argument :: after) → other.dataField ≠ request.dataField := by
  refine ⟨?_, fun other others hother hdata => ?_, fun other before argument after hsplit hother => ?_⟩
  · rw [h.dataParts_eq, h.args]
  · obtain ⟨hendpoint, hargs⟩ := h.eq_of_dataField_eq hother hdata
    refine ⟨hendpoint, hargs, Argument.payloads_eq ?_⟩
    rw [← hother.args, hargs, h.args]
  · refine h.dataField_ne_of_length_ne hother ?_
    rw [hsplit, List.length_append, List.length_append, List.length_cons]
    omega

/-- A call of an endpoint with some arguments. -/
def callOf (endpoint : String) (arguments : List Argument) : CallRequest where
  contractAddress := "erd1qqqqqqqqqqqqqpgq"
  endpoint := endpoint
  args := arguments.map Argument.hexText
  options := .withGasLimit 6000000
  payment := none

/-- An amount of zero between two others is an empty argument, and the data without it is that of
another call. -/
theorem reserve_data_is_lossless :
    (callOf "removeReserve" [.natural 1000, .natural 0, .bool true]).dataField =
      "removeReserve@03e8@@01" ∧
    dataParts "removeReserve@03e8@@01" = ["removeReserve", "03e8", "", "01"] ∧
    (callOf "removeReserve" [.natural 1000, .natural 0, .bool true]).dataField ≠
      (callOf "removeReserve" [.natural 1000, .bool true]).dataField := by
  have hsends : ∀ arguments, (callOf "removeReserve" arguments).Sends arguments :=
    fun arguments => ⟨show '@' ∉ "removeReserve".toList by decide, rfl⟩
  have hdata : (callOf "removeReserve" [.natural 1000, .natural 0, .bool true]).dataField =
      "removeReserve@03e8@@01" := by decide +kernel
  obtain ⟨hparts, -⟩ := transaction_data_is_lossless
    (hsends [.natural 1000, .natural 0, .bool true])
  obtain ⟨-, -, hmissing⟩ := transaction_data_is_lossless (hsends [.natural 1000, .bool true])
  refine ⟨hdata, ?_, hmissing _ [.natural 1000] (.natural 0) [.bool true] rfl (hsends _)⟩
  rw [hdata] at hparts
  rw [hparts]
  decide +kernel

end ContractAbi
