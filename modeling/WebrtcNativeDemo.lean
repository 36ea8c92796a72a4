import WebrtcNativeDemo.TransportQueue
import WebrtcNativeDemo.TransportReader
import WebrtcNativeDemo.TransportConnect
import WebrtcNativeDemo.SessionMessages
import WebrtcNativeDemo.SessionIoLoop
import WebrtcNativeDemo.SessionKeepAlive
import WebrtcNativeDemo.SessionRefinement
import WebrtcNativeDemo.TransportConnected
import WebrtcNativeDemo.TransportClose
import WebrtcNativeDemo.TransportLifetime
import WebrtcNativeDemo.SessionConnection
import WebrtcNativeDemo.SessionDestruction
import WebrtcNativeDemo.TcpEcho
import WebrtcNativeDemo.BasicJson
import WebrtcNativeDemo.JsonLexer
import WebrtcNativeDemo.JsonStrings
import WebrtcNativeDemo.JsonNumbers
import WebrtcNativeDemo.JsonTokens
import WebrtcNativeDemo.JsonParser
import WebrtcNativeDemo.JsonGrammar
import WebrtcNativeDemo.SerializerStrings
import WebrtcNativeDemo.SerializerNumbers
import WebrtcNativeDemo.Serializer
import WebrtcNativeDemo.JsonRoundTrip
import WebrtcNativeDemo.SerializerEncoding
import WebrtcNativeDemo.SessionText
import WebrtcNativeDemo.Sigslot
import WebrtcNativeDemo.SigslotDelivery
import WebrtcNativeDemo.SigslotLinks
import WebrtcNativeDemo.TcpSignals
