import Coio.MachineProofs
import Coio.CountdownProofs
import Coio.LockProofs
import Coio.StackProofs
import Coio.CoroutineProofs
import Coio.FutureProofs
import Coio.HandshakeProofs
import Coio.FrameProofs
import Coio.RefinementProofs
import Coio.ProgressProofs
import Coio.TerminationProofs
import Coio.ExecutionProofs
import Coio.ChainProofs
import Coio.TraceProofs
import Coio.PipelineProofs
import Coio.ScheduleProofs
import Coio.HandoverProofs
import Coio.CounterProofs
import Coio.WhenAllProofs
import Coio.SyncWaitProofs
import Coio.BindingProofs
import Coio.RemoteQueueProofs
import Coio.IoContextProofs
import Coio.TaskQueueProofs
import Coio.RingProofs
import Coio.SubmissionProofs
import Coio.IoLoopProofs
import Coio.StreamBufferProofs
import Coio.StreamLimitProofs
import Coio.StreamCopyProofs
import Coio.OwnershipProofs
import Coio.ResultTypeProofs
import Coio.GeneratorProofs
import Coio.ProgProofs
import Coio.SearchProofs
import Coio.HttpParserProofs
import Coio.HttpHeadProofs
import Coio.HttpReadProofs
import Coio.HttpMessageProofs
import Coio.HttpUrlProofs
import Coio.HttpDecodeProofs
import Coio.HttpClientProofs
import Coio.HttpRequestProofs
import Coio.HttpIndependenceProofs
import Coio.HttpHeaderProofs
import Coio.ResolverProofs
import Coio.ResolverAnswerProofs
import Coio.PingPongProofs
import Coio.CStringProofs
import Coio.LocalAddressProofs
import Coio.ByteOrderProofs
import Coio.InetAddressProofs
import Coio.TransducerProofs
import Coio.ChunkedProofs
import Coio.ChunkedBodyProofs
import Coio.HttpGrammarProofs
import Coio.HttpIncrementalProofs
import Coio.HttpRequestParserProofs
import Coio.FastScanProofs
import Coio.HttpEndToEndProofs
import Coio.ChronoProofs
import Coio.TimeDelayProofs
