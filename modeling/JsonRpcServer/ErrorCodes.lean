import JsonRpcServer.Integers
import JsonRpcServer.Serving

/-!
# Error codes

An error code goes into the error object as decimal text, and `JSONErrorReply`
reads it out of it again to pick the status.
-/
namespace JsonRpcServer

open UniValue

/-- The status is read off the code alone; the message and the id are in the text only. -/
theorem jsonErrorReply_jsonrpcError {code : Int} (h : FitsInt code) (message : Bytes)
    (id : UniValue) :
    jsonErrorReply (jsonrpcError code message) id = (do
      let strReply ← orThrow (jsonrpcReply null (jsonrpcError code message) id)
      HTTPRequest.writeHeader (cstr "Content-Type") (cstr "application/json")
      HTTPRequest.writeReply (errorStatus code) strReply) := by
  rw [jsonErrorReply, code_jsonrpcError h]
  rfl

/-- The code of an error object survives: the text it is stored as is one number token, `get_int`
reads it back, and `JSONErrorReply` picks the status by it alone. -/
structure CodeSurvives (code : Int) (message : Bytes) : Prop where
  readBack : ((jsonrpcError code message).findValue (cstr "code") >>= getInt) = .ok code
  stored : (jsonrpcError code message).findValue (cstr "code") = .ok (ofType .vnum (intText code))
  accepted : ∀ found : UniValue, found.setNumStr (intText code) = ofType .vnum (intText code)
  token : getJsonToken (intText code) = (.number, intText code, (intText code).length)
  status : ∀ id, jsonErrorReply (jsonrpcError code message) id = (do
    let strReply ← orThrow (jsonrpcReply null (jsonrpcError code message) id)
    HTTPRequest.writeHeader (cstr "Content-Type") (cstr "application/json")
    HTTPRequest.writeReply (errorStatus code) strReply)

/-- Every `int` survives its trip through the error object. -/
theorem code_survives {code : Int} (h : FitsInt code) (message : Bytes) :
    CodeSurvives code message := by
  refine ⟨code_jsonrpcError h message, ?_, fun found => setNumStr_intText found code, ?_, ?_⟩
  · rw [findValue_code, ofInt_eq]
  · exact getJsonToken_number (number_intText code)
  · exact fun id => jsonErrorReply_jsonrpcError h message id

/-- The least `int`. -/
theorem code_survives_least : CodeSurvives (-2 ^ 31) (cstr "least") :=
  code_survives ⟨by decide, by decide⟩ (cstr "least")

end JsonRpcServer
