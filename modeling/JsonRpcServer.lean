import JsonRpcServer.WireReplies
import JsonRpcServer.RequestTexts
import JsonRpcServer.Dispatch
import JsonRpcServer.OneReply
import JsonRpcServer.RepeatedNames
import JsonRpcServer.Registrations
import JsonRpcServer.ErrorCodes
import JsonRpcServer.Service
import JsonRpcServer.Liveness
import JsonRpcServer.Extension
import JsonRpcServer.Wrapper
import JsonRpcServer.Ownership
import JsonRpcServer.PointerReader
import JsonRpcServer.Pretty
import JsonRpcServer.NumberTexts
import JsonRpcServer.Built
